import VisualScript.Proofs.Bindings
import VisualScript.Proofs.Scoping

/-!
# Proofs — Introductions

The variables that a generated body introduces.  `Code.introduced` reads them off the code: the
temporaries, and the variables of the lines that declare one and of loop headers.  `Code.issued` are
the fresh variables that the nodes were given.  The two are the same up to their order
(`Walk.introducing`): the lines of a node introduce each of its fresh variables once
(`Recipe.introduces_eq`), and no line looks like a declaration because of the values filled into it
(`Expr.Tame`).
-/

namespace VisualScript

open Evaluation Walk

variable {inputs : Inputs} {name : String} {s : State}

/-! ### Lines -/

namespace Expr

/-- What a line that introduces a variable begins with. -/
def openers : List String := ["local ", "CustomWeaponData ", "for (int ", "foreach (int "]

/-- The variables a line introduces, for the rest of its block or for the block below it. -/
def introduced (e : Expr) : List String := e.declared ++ e.loopVars

/-- The expression does not begin like a line that introduces a variable. -/
def Tame (e : Expr) : Prop :=
  ∀ (s v : String) (rest : Expr), e = .text s :: .var v :: rest → s ∉ openers

theorem Tame.introduced_eq {e : Expr} (h : e.Tame) : e.introduced = [] := by
  have hdeclared : e.declared = [] := by
    unfold declared
    split
    · exact absurd (by decide) (h _ _ _ rfl)
    · exact absurd (by decide) (h _ _ _ rfl)
    · rfl
  have hloop : e.loopVars = [] := by
    unfold loopVars
    split
    · exact absurd (by decide) (h _ _ _ rfl)
    · exact absurd (by decide) (h _ _ _ rfl)
    · rfl
  rw [introduced, hdeclared, hloop]
  rfl

theorem tame_ofText (s : String) : (ofText s).Tame := by
  intro _ _ _ h
  cases h

theorem tame_ofVar (v : String) : (ofVar v).Tame := by
  intro _ _ _ h
  cases h

theorem tame_text_cons {s : String} (hs : s ∉ openers) (rest : Expr) :
    Tame (.text s :: rest) := by
  intro _ _ _ h
  cases h
  exact hs

/-- A text that follows leaves no place for a variable in front. -/
theorem Tame.append_text {e : Expr} {s : String} (h : e.Tame) (hs : s ∉ openers) (rest : Expr) :
    Tame (e ++ .text s :: rest) := by
  cases e with
  | nil => exact tame_text_cons hs rest
  | cons a e =>
    cases e with
    | nil =>
      intro _ _ _ he
      cases he
    | cons b e =>
      intro s' v rest' he
      cases he
      exact h s' v e rfl

end Expr

/-- Every value among the inputs is tame. -/
def Inputs.Tame (inputs : Inputs) : Prop := ∀ b ∈ inputs, ∀ e ∈ b.2, e.Tame

theorem Inputs.Tame.lookup (h : inputs.Tame) {e : Expr} (hl : inputs.lookup name = some (some e)) :
    e.Tame :=
  h _ (Assoc.mem_of_lookup hl) e rfl

theorem Inputs.Tame.set (h : inputs.Tame) {value : Option Expr} (hv : ∀ e ∈ value, e.Tame) :
    Inputs.Tame (Assoc.set name value inputs) := by
  intro b hb
  rcases Assoc.mem_set hb with rfl | hb
  · exact hv
  · exact h b hb

namespace Template

variable {t : Template}

/-- The line made from the template may begin like one that introduces a variable. -/
def opens : Template → Bool
  | .text s :: _             => s ∈ Expr.openers
  | .input _ :: .text s :: _ => s ∈ Expr.openers
  | .input _ :: _ :: _       => true
  | _                        => false

@[simp] theorem fill_text (inputs : Inputs) (vars : List String) (s : String) :
    fill inputs vars [.text s] = Expr.ofText s := by simp [fill]

theorem tame_inputText (h : inputs.Tame) (name : String) : (inputText inputs name).Tame := by
  unfold inputText
  split
  · rename_i e he
    exact h.lookup he
  · exact Expr.tame_ofText _
  · intro _ _ _ he
    cases he

theorem tame_fill (h : inputs.Tame) (vars : List String) (ht : t.opens = false) :
    (t.fill inputs vars).Tame := by
  cases t with
  | nil =>
    intro _ _ _ he
    cases he
  | cons piece t =>
    cases piece with
    | text s => exact Expr.tame_text_cons (by simpa [opens] using ht) _
    | fresh i =>
      intro _ _ _ he
      cases he
    | input name =>
      cases t with
      | nil =>
        have hfill : fill inputs vars [.input name] = inputText inputs name := by simp [fill]
        rw [hfill]
        exact tame_inputText h name
      | cons piece t =>
        cases piece with
        | text s =>
          have hs : s ∉ Expr.openers := by simpa [opens] using ht
          exact (tame_inputText h name).append_text hs (fill inputs vars t)
        | input _ | fresh _ => cases ht

theorem declares_of_opens (ht : t.opens = false) : t.declares = [] := by
  unfold declares
  split
  · exact absurd ht (by simp [opens, Expr.openers])
  · exact absurd ht (by simp [opens, Expr.openers])
  · rfl

theorem heads_of_opens (ht : t.opens = false) : t.heads = [] := by
  unfold heads
  split
  · exact absurd ht (by simp [opens, Expr.openers])
  · exact absurd ht (by simp [opens, Expr.openers])
  · rfl

/-- The line made from the template introduces the variables that the template does. -/
def Regular (t : Template) : Prop := ∀ (inputs : Inputs) (vars : List String), inputs.Tame →
  (t.fill inputs vars).introduced = (t.declares ++ t.heads).map (vars.getD · "")

theorem regular_of_opens (ht : t.opens = false) : t.Regular := by
  intro inputs vars h
  rw [(tame_fill h vars ht).introduced_eq, declares_of_opens ht, heads_of_opens ht]
  rfl

/-- A line that introduces one fresh variable. -/
theorem regular_fresh {s : String} (hs : s ∈ ["local ", "CustomWeaponData ", "for (int "]) (i : Nat)
    (rest : Template) : Template.Regular (.text s :: .fresh i :: rest) := by
  intro inputs vars _
  simp only [List.mem_cons, List.not_mem_nil, or_false] at hs
  rcases hs with rfl | rfl | rfl <;>
    simp [fill, Expr.ofText, Expr.ofVar, Expr.introduced, Expr.declared, Expr.loopVars, declares,
      heads]

/-- The header of a loop over an array introduces two. -/
theorem regular_foreach (i j : Nat) (rest : Template) :
    Template.Regular (.text "foreach (int " :: .fresh i :: .text ", var " :: .fresh j :: rest) := by
  intro inputs vars _
  simp [fill, Expr.ofText, Expr.ofVar, Expr.introduced, Expr.declared, Expr.loopVars, declares,
    heads]

end Template

/-! ### Recipes -/

/-- The fresh variables that an item introduces. -/
def Item.introduces : Item → List Nat
  | .line t => t.declares ++ t.heads
  | _       => []

namespace Recipe

variable {t : Template} {type : ValueType}

theorem table_opens : ∀ entry ∈ Table.all, ∀ t ∈ entry.2.templates, t.opens = false := by decide

variable {nodeType : String} {r : Recipe} {x : Index} {n : PlacedNode}

theorem opens_of_mem (hr : ofType? nodeType = some r) (ht : t ∈ r.templates) :
    t.opens = false := table_opens _ (Assoc.mem_of_lookup hr) t ht

theorem line_caseItems : ∀ {i : Nat} {vs : List Json},
    .line t ∈ caseItems type n i vs → ∃ s : String, t = [.text s]
  | _, [], h => by cases h
  | i, v :: vs, h => by
    rw [caseItems] at h
    split at h
    · simp only [List.mem_cons, Item.line.injEq, reduceCtorEq, false_or] at h
      rcases h with rfl | h
      · exact ⟨_, rfl⟩
      · exact line_caseItems h
    · cases h

/-- A line of fixed text introduces nothing. -/
theorem regular_text (s : String) : Template.Regular [.text s] := by
  intro inputs vars _
  rw [Template.fill_text, (Expr.tame_ofText s).introduced_eq]
  simp [Template.declares, Template.heads]

theorem regular_switch {cases : List Json} (h : .line t ∈ switchItems type x n cases) :
    t.Regular := by
  simp only [switchItems, List.mem_append, List.mem_cons, Item.line.injEq, List.not_mem_nil,
    or_false, reduceCtorEq] at h
  rcases h with (((rfl | rfl) | h) | h) | rfl
  · exact Template.regular_of_opens (by decide)
  · exact regular_text _
  · obtain ⟨s, rfl⟩ := line_caseItems h
    exact regular_text s
  · split at h
    · simp only [List.mem_cons, Item.line.injEq, reduceCtorEq, List.not_mem_nil, or_false] at h
      rw [h]
      exact regular_text _
    · cases h
  · exact regular_text _

/-- Every line of a node introduces the variables that its template does. -/
theorem regular_of_mem (hr : ofType? nodeType = some r) (h : .line t ∈ (r.outline x n).items) :
    t.Regular := by
  cases r with
  | statement lines =>
    simp only [outline, List.mem_append, List.mem_map, Item.line.injEq, exists_eq_right,
      List.mem_singleton, reduceCtorEq, or_false] at h
    exact Template.regular_of_opens (opens_of_mem hr h)
  | bound call output =>
    simp only [outline, List.mem_cons, Item.line.injEq, reduceCtorEq, List.not_mem_nil,
      or_false] at h
    rw [h]
    exact Template.regular_fresh (.head _) _ _
  | switch type =>
    simp only [outline] at h
    split at h <;> exact regular_switch h
  | branch =>
    simp only [outline, List.mem_append, List.mem_cons, Item.line.injEq, reduceCtorEq,
      List.not_mem_nil, or_false, false_or] at h
    rcases h with (rfl | rfl | rfl) | h
    · exact Template.regular_of_opens (by decide)
    · exact regular_text _
    · exact regular_text _
    · split at h
      · simp only [List.mem_cons, Item.line.injEq, reduceCtorEq, List.not_mem_nil, or_false,
          false_or] at h
        rcases h with rfl | rfl | rfl <;> exact regular_text _
      · cases h
  | loopFor =>
    simp only [outline, List.mem_cons, Item.line.injEq, reduceCtorEq, List.not_mem_nil,
      or_false, false_or] at h
    rcases h with rfl | rfl | rfl
    · exact Template.regular_fresh (by decide) _ _
    · exact regular_text _
    · exact regular_text _
  | loopEach =>
    simp only [outline, List.mem_cons, Item.line.injEq, reduceCtorEq, List.not_mem_nil,
      or_false, false_or] at h
    rcases h with rfl | rfl | rfl
    · exact Template.regular_foreach _ _ _
    · exact regular_text _
    · exact regular_text _
  | loopWhile =>
    simp only [outline, List.mem_cons, Item.line.injEq, reduceCtorEq, List.not_mem_nil,
      or_false, false_or] at h
    rcases h with rfl | rfl | rfl
    · exact Template.regular_of_opens (by decide)
    · exact regular_text _
    · exact regular_text _
  | registerWeapon =>
    simp only [outline, List.mem_append, List.mem_cons, List.mem_map, Item.line.injEq,
      reduceCtorEq, List.not_mem_nil, or_false] at h
    rcases h with (rfl | ⟨field, -, rfl⟩) | rfl
    · exact Template.regular_fresh (by decide) _ _
    · exact Template.regular_of_opens rfl
    · exact Template.regular_of_opens (by decide)
  | append =>
    simp only [outline, List.mem_cons, Item.line.injEq, reduceCtorEq, List.not_mem_nil,
      or_false] at h
    rw [h]
    exact Template.regular_of_opens (by decide)
  | stop =>
    simp only [outline, List.mem_singleton, Item.line.injEq] at h
    rw [h]
    exact regular_text _
  | sequence => simp [outline] at h
  | thread => simp [outline] at h
  | expression | reroute => cases h
  | constant type key output =>
    simp only [outline] at h
    split at h <;> cases h

theorem introduces_caseItems (type : ValueType) (n : PlacedNode) : ∀ (i : Nat) (vs : List Json),
    (caseItems type n i vs).flatMap Item.introduces = []
  | _, [] => rfl
  | i, v :: vs => by
    rw [caseItems]
    split
    · exact introduces_caseItems type n (i + 1) vs
    · rfl

/-- The lines of a node introduce each of its fresh variables once. -/
theorem introduces_eq (hr : ofType? nodeType = some r) :
    (r.outline x n).items.flatMap Item.introduces = List.range (r.outline x n).fresh.length := by
  cases r with
  | statement lines =>
    have hnone : (lines.map Item.line).flatMap Item.introduces = [] := by
      refine List.flatMap_eq_nil_iff.mpr fun item hm => ?_
      obtain ⟨t, ht, rfl⟩ := List.mem_map.mp hm
      have hopens := opens_of_mem hr ht
      rw [Item.introduces, Template.declares_of_opens hopens, Template.heads_of_opens hopens]
      rfl
    rw [outline, List.flatMap_append, hnone]
    rfl
  | switch type =>
    have hnone : ∀ cases, (switchItems type x n cases).flatMap Item.introduces = [] := by
      intro cases
      simp only [switchItems, List.flatMap_append, introduces_caseItems]
      split <;> rfl
    simp only [outline]
    split <;> rw [hnone] <;> rfl
  | branch =>
    simp only [outline]
    split <;> rfl
  | constant type key output =>
    simp only [outline]
    split <;> rfl
  | sequence =>
    refine List.flatMap_eq_nil_iff.mpr fun item hm => ?_
    obtain ⟨_, -, rfl⟩ := List.mem_map.mp hm
    rfl
  | registerWeapon => simp [outline, weaponFields, Item.introduces, Template.declares, Template.heads]
  | bound | expression | loopFor | loopEach | loopWhile | thread | stop | append | reroute => rfl

theorem introduces_splitTail (items : List Item) :
    (Outline.splitTail items).1.flatMap Item.introduces = items.flatMap Item.introduces := by
  unfold Outline.splitTail
  split
  · rename_i port hlast
    conv_rhs => rw [← List.dropLast_append_getLast? _ hlast, List.flatMap_append]
    simp [Item.introduces]
  · rfl

/-- What a node hands on is tame if its inputs are. -/
theorem tame_output (hr : ofType? nodeType = some r) {inputs : Inputs} {vars : List String}
    (h : inputs.Tame) {o : String × Output} (ho : o ∈ (r.outline x n).outputs)
    {v : String × Expr} (hv : outputValue inputs vars o = .ok v) : v.2.Tame := by
  have hcopy : ∀ {name i}, outputValue inputs vars (name, .copy i) = .ok v → v.2.Tame := by
    intro name i hv
    simp only [outputValue] at hv
    split at hv
    · rename_i e he
      cases hv
      exact h.lookup he
    · cases hv
  cases r with
  | expression value output =>
    cases List.mem_singleton.mp ho
    cases hv
    exact Template.tame_fill h vars (opens_of_mem hr (.head _))
  | bound call output =>
    cases List.mem_singleton.mp ho
    cases hv
    exact Template.tame_fill h vars rfl
  | constant type key output =>
    simp only [outline] at ho
    split at ho
    · rename_i s _
      cases List.mem_singleton.mp ho
      cases hv
      exact Template.fill_text inputs vars s ▸ Expr.tame_ofText s
    · cases ho
  | append | reroute =>
    cases List.mem_singleton.mp ho
    exact hcopy hv
  | switch type =>
    simp only [outline] at ho
    split at ho <;> cases ho
  | statement | sequence | branch | loopFor | loopEach | loopWhile | thread | stop |
    registerWeapon => cases ho

end Recipe

/-! ### Values -/

open Scopes

/-- What is read is tame. -/
theorem Evaluation.taming (x : Index) (pass : Pass) :
    Fetching x pass
      (fun _ _ s value _ s' => Values (fun _ => Expr.Tame) s.scopes →
        Values (fun _ => Expr.Tame) s'.scopes ∧ ∀ e ∈ value, e.Tame)
      (fun _ _ _ inputs s inputs' _ s' => Values (fun _ => Expr.Tame) s.scopes → inputs.Tame →
        Values (fun _ => Expr.Tame) s'.scopes ∧ inputs'.Tame) := by
  have hnil : Inputs.Tame [] := fun _ hb => by cases hb
  -- the outputs of an evaluated node
  have hout : ∀ {n r inputs s s' em}, Recipe.ofType? n.node.nodeType = some r →
      emit (r.outline x n) inputs s = .ok (em, s') → inputs.Tame → ∀ o ∈ em.outputs, o.2.Tame := by
    intro n r inputs s s' em hr hem h o ho
    obtain ⟨-, -, houtputs, -⟩ := emit_ok hem
    obtain ⟨o', hm, hv⟩ := exists_of_mem_mapM houtputs ho
    exact Recipe.tame_output hr h hm hv
  constructor
  case bound =>
    intro pending e s n value ss hn hl h
    rw [note_scopes] at hl
    obtain ⟨h', hv⟩ := h.lookup hl
    exact ⟨h', fun e he => Option.some.inj he ▸ hv⟩
  case inline =>
    intro pending e s n r inputs code s₁ em s₂ value hn _ _ _ _ hr _ hI hem hv h
    rw [← note_scopes x pass n s] at h
    obtain ⟨h₁, hin⟩ := hI h hnil
    rw [emit_scopes hem]
    exact ⟨h₁, fun e he => Option.some.inj he ▸ hout hr hem hin _ (Assoc.mem_of_lookup hv)⟩
  case temporary =>
    intro pending e s n r hidden inputs code s₁ em s₂ value hn _ _ _ _ hr _ _ hI hem hv made placed h
    rw [← note_scopes x pass n s] at h
    obtain ⟨h₁, -⟩ := hI (h.lower hidden) hnil
    rw [← emit_scopes hem] at h₁
    exact (h.raise (h₁.declare fun _ _ _ _ => Expr.tame_ofVar)).fetch e
  case nil => exact fun h hin => ⟨h, hin⟩
  case skip => exact fun _ hI => hI
  case connected =>
    intro pending n t ts inputs s e value code s₁ inputs' more s₂ _ _ hR _ hI h hin
    obtain ⟨h₁, hv⟩ := hR h
    exact hI h₁ (hin.set hv)
  case literal =>
    intro pending n t ts inputs s value inputs' code s' _ _ hlit hI h hin
    refine hI h (hin.set fun e he => ?_)
    obtain rfl := Option.some.inj he
    unfold literal at hlit
    dsimp only at hlit
    split at hlit
    · cases hlit
      exact Expr.tame_ofText _
    · cases hlit

/-! ### Bodies -/

namespace Code

/-- The variables a body introduces, in itself, its blocks and its threads. -/
def introduced : Code → List String
  | done                   => []
  | mark _ _ _ rest        => introduced rest
  | line t rest            => t.introduced ++ introduced rest
  | declare _ v _ rest     => v :: introduced rest
  | block _ body rest      => introduced body ++ introduced rest
  | thread _ _ _ body rest => introduced body ++ introduced rest

/-- The fresh variables that the nodes of a body are given. -/
def issued : Code → List String
  | done                   => []
  | mark _ _ vars rest     => vars ++ issued rest
  | line _ rest            => issued rest
  | declare _ v _ rest     => v :: issued rest
  | block _ body rest      => issued body ++ issued rest
  | thread _ _ _ body rest => issued body ++ issued rest

@[simp] theorem introduced_append (c d : Code) :
    (c ++ d).introduced = c.introduced ++ d.introduced := by
  induction c <;> simp_all [introduced]

@[simp] theorem issued_append (c d : Code) : (c ++ d).issued = c.issued ++ d.issued := by
  induction c <;> simp_all [issued]

@[simp] theorem introduced_ofLines (ls : List String) : (ofLines ls).introduced = [] := by
  induction ls with
  | nil => rfl
  | cons s ls ih => rw [ofLines, introduced, (Expr.tame_ofText s).introduced_eq, ih]; rfl

@[simp] theorem issued_ofLines (ls : List String) : (ofLines ls).issued = [] := by
  induction ls <;> simp_all [ofLines, issued]

theorem Flat.introduced_eq : ∀ {c : Code}, c.Flat → c.introduced = c.issued
  | .done, _ => rfl
  | .declare _ v _ rest, h => by
    have h : rest.Flat := h
    rw [introduced, issued, h.introduced_eq]

/-- The body introduces the fresh variables that its nodes are given, each as often as it was given
out. -/
def Exact (c : Code) : Prop := c.introduced.Perm c.issued

/-- What holds of every nested block holds of the body of every thread. -/
theorem Nested.of_mem_threads {P : Code → Prop} {t : ThreadFunction} : ∀ {c : Code}, c.Nested P →
    t ∈ c.threads → P t.body
  | .mark _ _ _ rest, h, ht => Nested.of_mem_threads (c := rest) h ht
  | .line _ rest, h, ht => Nested.of_mem_threads (c := rest) h ht
  | .declare _ _ _ rest, h, ht => Nested.of_mem_threads (c := rest) h ht
  | .block _ body rest, h, ht => (List.mem_append.mp ht).elim h.1.2.of_mem_threads h.2.of_mem_threads
  | .thread _ _ _ body rest, h, ht => by
    rcases List.mem_append.mp ht with ht | ht
    · exact h.1.2.of_mem_threads ht
    · rcases List.mem_cons.mp ht with rfl | ht
      · exact h.1.1
      · exact h.2.of_mem_threads ht

end Code

/-- The fresh variables of a node are as many as its outline asks for. -/
theorem Evaluation.map_range_vars {o : Outline} {s s' : State} {em : Emission}
    (h : emit o inputs s = .ok (em, s')) :
    (List.range o.fresh.length).map (em.vars.getD · "") = em.vars := by
  have hlen : em.vars.length = o.fresh.length := by
    rw [(emit_ok h).1, State.freshVars_length]
  rw [← hlen]
  refine List.ext_getElem (by simp) fun i _ hi => ?_
  simp [List.getD_eq_getElem?_getD, List.getElem?_eq_getElem hi]

/-- **The code of a pass introduces the fresh variables of its nodes,** and so does every block in
it. -/
theorem Walk.introducing (x : Index) (pass : Pass)
    (hid : ∀ {id n}, x.node? id = some n → n.node.id = id) :
    Walking x pass
      (fun c s code s' => c.Laid x → Values (fun _ => Expr.Tame) s.scopes →
        Values (fun _ => Expr.Tame) s'.scopes ∧ code.introduced.Perm code.issued ∧
          code.Nested Code.Exact)
      (fun _ filling own s code s' => ∀ items, Parts.Laid x items own → filling.inputs.Tame →
        (∀ t, .line t ∈ items → t.Regular) → Values (fun _ => Expr.Tame) s.scopes →
          Values (fun _ => Expr.Tame) s'.scopes ∧ code.introduced.Perm
            ((items.flatMap Item.introduces).map (filling.vars.getD · "") ++ code.issued) ∧
            code.Nested Code.Exact) := by
  constructor
  case finish => exact fun _ h => ⟨h, .refl _, trivial⟩
  case step =>
    intro id own rest s n filling before s₁ code s₂ after s₃ hn henter hran _ hown hrest hlaid h
    cases hlaid with
    | @step _ _ r _ _ hn' _ _ hr hlp hlc =>
      obtain rfl := Option.some.inj (hn.symm.trans hn')
      obtain ⟨r', s₁', em, s₂', hr', hin, hem, hvars, rfl⟩ := enter_ok henter
      obtain rfl := Option.some.inj (hr.symm.trans hr')
      obtain ⟨h₁, htame⟩ := (taming x pass).inputs hin h fun _ hb => by cases hb
      rw [← emit_scopes hem] at h₁
      have h₂ : Values (fun _ => Expr.Tame) (bindOutputs n em.outputs s₂').scopes := by
        refine h₁.bindOutputs fun o ho _ => ?_
        obtain ⟨o', hm, hv⟩ := exists_of_mem_mapM (emit_ok hem).2.2.1 ho
        exact Recipe.tame_output hr htame hm hv
      obtain ⟨h₃, hperm, hn₁⟩ := hown _ hlp htame
        (fun t ht => Recipe.regular_of_mem hr (Flow.mem_of_mem_splitTail ht)) (h₂.setHoisted .done)
      obtain ⟨h₄, hafter, hn₂⟩ := hrest hlc (h₃.setHoisted _)
      -- the items introduce exactly the variables of the node
      rw [Recipe.introduces_splitTail, Recipe.introduces_eq hr, hvars, map_range_vars hem] at hperm
      have hbefore := ((growing x pass).inputs hin).2
      have hfront := (setHoisted_grow ((writing x pass hid).parts own hran).1).2
      refine ⟨h₄, ?_, ?_⟩
      case refine_2 => simpa [Code.Nested] using ⟨⟨hbefore.nested, hfront.nested⟩, hn₁, hn₂⟩
      simp only [Code.introduced_append, Code.issued_append, Code.introduced, Code.issued,
        hbefore.introduced_eq, hfront.introduced_eq, hvars]
      refine .append_left _ ?_
      rw [← List.append_assoc em.vars]
      exact hperm.append hafter
  case nil =>
    intro n filling s items hlaid _ _ h
    cases hlaid
    exact ⟨h, .refl _, trivial⟩
  case line =>
    intro n filling t rest s after s' ih items hlaid htame hreg h
    cases hlaid with
    | @line items _ _ hl =>
      obtain ⟨h', hperm, hnested⟩ := ih items hl htame (fun t ht => hreg t (.tail _ ht)) h
      refine ⟨h', ?_, hnested⟩
      simp only [Code.introduced, Code.issued, hreg t (.head _) _ _ htame, List.flatMap_cons,
        Item.introduces, List.map_append, List.append_assoc]
      exact (hperm.append_left _).append_left _
  case follow =>
    intro n filling body rest s code s₁ after s₂ _ hbody hrest items hlaid htame hreg h
    cases hlaid with
    | @follow items _ _ _ hlb hl =>
      obtain ⟨h₁, hcode, hn₁⟩ := hbody hlb h
      obtain ⟨h₂, hafter, hn₂⟩ := hrest items hl htame (fun t ht => hreg t (.tail _ ht)) h₁
      refine ⟨h₂, ?_, by simpa using ⟨hn₁, hn₂⟩⟩
      rw [Code.introduced_append, Code.issued_append, List.flatMap_cons]
      refine (hcode.append hafter).trans ?_
      simp only [Item.introduces, List.nil_append]
      exact List.perm_append_comm_assoc _ _ _
  case block =>
    intro n filling port bindings tail body rest s code s₁ after s₂ _ _ hbody hrest items hlaid htame
      hreg h
    cases hlaid with
    | @block items _ _ _ _ _ hlb hl =>
      obtain ⟨h₁, hcode, hn₁⟩ := hbody hlb (h.openBlock fun _ => Expr.tame_ofVar)
      obtain ⟨h₂, hafter, hn₂⟩ :=
        hrest items hl htame (fun t ht => hreg t (.tail _ ht)) h₁.closeBlock
      refine ⟨h₂, ?_, ⟨by simpa [Code.Exact] using hcode, by simpa using hn₁⟩, hn₂⟩
      simp only [Code.introduced, Code.issued, Code.introduced_append, Code.issued_append,
        Code.introduced_ofLines, Code.issued_ofLines, List.append_nil, List.flatMap_cons,
        Item.introduces, List.nil_append]
      exact (hcode.append hafter).trans (List.perm_append_comm_assoc _ _ _)
  case named =>
    intro n filling port name body rest s e after s' _ ih items hlaid htame hreg h
    cases hlaid with
    | @thread items _ _ _ _ _ _ _ hl =>
      obtain ⟨h', hperm, hnested⟩ := ih items hl htame (fun t ht => hreg t (.tail _ ht)) h
      have hline : Expr.introduced (.text "thread " :: e ++ Expr.ofText "()") = [] :=
        (Expr.tame_text_cons (by decide) _).introduced_eq
      refine ⟨h', ?_, hnested⟩
      rw [Code.introduced, hline, List.flatMap_cons]
      exact hperm
  case thread =>
    intro n filling port name isConnected body rest s code s₁ after s₂ _ _ hbody hrest items hlaid
      htame hreg h
    cases hlaid with
    | @thread items _ _ _ _ _ _ hlb hl =>
      obtain ⟨h₁, hcode, hn₁⟩ := hbody hlb (h.openBlock fun _ => Expr.tame_ofVar)
      obtain ⟨h₂, hafter, hn₂⟩ :=
        hrest items hl htame (fun t ht => hreg t (.tail _ ht)) h₁.closeBlock
      refine ⟨h₂, ?_, ⟨hcode, hn₁⟩, hn₂⟩
      simp only [Code.introduced, Code.issued, List.flatMap_cons, Item.introduces, List.nil_append]
      exact (hcode.append hafter).trans (List.perm_append_comm_assoc _ _ _)

/-- The body of an entry function introduces the fresh variables of its nodes, and so do its
threads. -/
theorem EntryFunction.body_exact {nodes : List Node} {connections : List Connection} {x : Index}
    (hb : Index.Built .builtin nodes connections x) {pass : Pass} {n : PlacedNode} {flow : Parts}
    (hf : (n, flow) ∈ Script.flows x x.entries {}) {body : Code}
    (hw : walkFlow x pass n flow = .ok (body, s)) : body.Exact ∧ ∀ t ∈ body.threads, t.body.Exact := by
  have hlaid := (Script.flows_entries hb).1 _ hf
  have hstart : Values (fun _ => Expr.Tame) (initial n).scopes := by
    rw [initial_scopes]
    intro sc hsc b hb
    obtain rfl := List.mem_singleton.mp hsc
    obtain ⟨p, -, rfl⟩ := List.mem_map.mp (List.mem_reverse.mp hb)
    exact Expr.tame_ofVar _
  -- the items of an entry node are outputs to go on with
  have hfollow : ∀ item ∈ Flow.entryItems n, ∃ port, item = .follow port := by
    intro item hm
    obtain ⟨socket, -, rfl⟩ := List.mem_map.mp hm
    exact ⟨_, rfl⟩
  have hnone : (Flow.entryItems n).flatMap Item.introduces = [] := by
    refine List.flatMap_eq_nil_iff.mpr fun item hm => ?_
    obtain ⟨port, rfl⟩ := hfollow item hm
    rfl
  obtain ⟨-, hperm, hnested⟩ := (Walk.introducing x pass hb.node_id).parts flow hw _ hlaid
    (fun _ hb => by cases hb) (fun t ht => by
      obtain ⟨port, he⟩ := hfollow _ ht
      cases he) hstart
  rw [hnone] at hperm
  exact ⟨hperm, fun t ht => hnested.of_mem_threads ht⟩

end VisualScript
