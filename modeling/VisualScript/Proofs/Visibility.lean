import VisualScript.Proofs.Free
import VisualScript.Proofs.Growth
import VisualScript.Proofs.Recipes

/-!
# Proofs — Visibility

Which variables a block can see while it is written.  `Scopes.Visible` collects, from the innermost
scope outwards, what is declared in each block in front of the current place; a thread sees of the
outside what it is handed, and the variables `leak`.

`Scopes.Sighted` ties the scopes to this.  Every value that is bound is made from visible variables,
and what waits in front of a node uses nothing that is declared behind it.  Reading keeps this
(`Evaluation.sighted`): the declarations it adds use visible variables only, and so do the values it
returns.
-/

namespace VisualScript

open Evaluation

/-! ### Names of variables -/

@[simp] theorem Expr.text_ofVar (v : String) : (Expr.ofVar v).text = v := by
  simp [Expr.text, Expr.ofVar, String.join]

theorem isDigit_of_mem_toString {k : Nat} {c : Char} (h : c ∈ (toString k).toList) :
    c.isDigit = true := by
  have h : c ∈ (Nat.repr k).toList := h
  rw [Nat.toList_repr] at h
  exact Nat.isDigit_of_mem_toDigits (b := 10) (by decide) (by decide) h

theorem Text.isIdentifierPart_of_isDigit {c : Char} (h : c.isDigit = true) :
    isIdentifierPart c = true := by
  have h : 48 ≤ c.toNat ∧ c.toNat ≤ 57 := by
    simp only [Char.isDigit, Bool.and_eq_true, decide_eq_true_eq] at h
    exact h
  -- the digits are the first range of the table
  obtain ⟨ranges, hr⟩ : ∃ ranges, identifierPartRanges = (48, 57) :: ranges := ⟨_, rfl⟩
  rw [isIdentifierPart, hr, inRanges, if_neg (Nat.not_lt.mpr h.1), decide_eq_true h.2, Bool.true_or,
    Bool.or_true]

theorem Expr.not_isDigit_of_mem_keyword :
    ∀ word ∈ keywords, ∀ c ∈ word.toList, c.isDigit = false := by
  have hall : (keywords.all fun word => word.toList.all fun c => !c.isDigit) = true := by decide
  simpa using hall

/-- A fresh variable is an identifier and no keyword. -/
theorem Expr.isVariable_fresh {stem : String} (h : Text.isIdentifier stem.toList = true) (k : Nat) :
    (Expr.ofVar (stem ++ toString k)).isVariable = true := by
  obtain ⟨c, cs, hstem⟩ : ∃ c cs, stem.toList = c :: cs := by
    cases hs : stem.toList with
    | nil => rw [hs] at h; cases h
    | cons c cs => exact ⟨c, cs, rfl⟩
  rw [hstem, Text.isIdentifier, Bool.and_eq_true, List.all_eq_true] at h
  rw [isVariable, text_ofVar, Bool.and_eq_true]
  constructor
  · rw [String.toList_append, hstem, List.cons_append, Text.isIdentifier, Bool.and_eq_true,
      List.all_eq_true]
    refine ⟨h.1, fun a ha => ?_⟩
    rcases List.mem_append.mp ha with ha | ha
    · exact h.2 a ha
    · exact Text.isIdentifierPart_of_isDigit (isDigit_of_mem_toString ha)
  · -- the number has a digit, and a keyword has none
    have hne : (toString k).toList ≠ [] := by
      show (Nat.repr k).toList ≠ []
      rw [Nat.toList_repr]
      exact Nat.toDigits_ne_nil
    obtain ⟨d, ds, hd⟩ := List.exists_cons_of_ne_nil hne
    have hdigit : d.isDigit = true :=
      isDigit_of_mem_toString (show d ∈ (toString k).toList by rw [hd]; exact .head ds)
    rw [Bool.not_eq_true', List.contains_eq_mem, decide_eq_false_iff_not]
    intro hk
    have hnone := not_isDigit_of_mem_keyword _ hk d (by rw [String.toList_append, hd]; simp)
    simp [hdigit] at hnone

/-! ### What a block can see -/

/-- What a scope lets through from outside: a thread sees what it is handed, and what leaks. -/
def Scope.Lets (leak : String → Prop) (sc : Scope) (v : String) : Prop :=
  sc.isThread = true → v ∈ sc.captures ∨ leak v

/-- The variable is declared in front of the current place: in the current block, whose declarations
are `w`, in front of the node that is being rendered there, or outside of the block. -/
def Scopes.Visible (leak : String → Prop) : List (List String) → Scopes → String → Prop
  | w :: ws, sc :: ss, v => v ∈ w ∨ v ∈ sc.hoisted.declared ∨ Visible leak ws ss v ∧ sc.Lets leak v
  | _,       _,        _ => False

open Scopes

/-- What is bound in a scope is made from visible variables, and what waits in it uses no variable
that is declared behind it. -/
structure Scope.Sees (leak : String → Prop) (w : List String) (ws : List (List String)) (sc : Scope)
    (ss : Scopes) : Prop where
  names   : ∀ v ∈ w ++ sc.hoisted.declared, (Expr.ofVar v).isVariable = true
  bound   : ∀ slot value, (slot, value) ∈ sc.bindings → ∀ v ∈ value.vars,
    Visible leak (w :: ws) (sc :: ss) v ∧ (value = .ofVar v ∨ leak v)
  waiting : ∀ v ∈ sc.hoisted.free [], v ∈ w ∨ Visible leak ws ss v ∧ sc.Lets leak v

/-- The open scopes, each with what is declared in its block. -/
inductive Scopes.Sighted (leak : String → Prop) : List (List String) → Scopes → Prop where
  | nil : Sighted leak [] []
  | cons {w : List String} {ws : List (List String)} {sc : Scope} {ss : Scopes}
      (top : sc.Sees leak w ws ss) (rest : Sighted leak ws ss) : Sighted leak (w :: ws) (sc :: ss)

variable {leak : String → Prop} {w d : List String} {ws : List (List String)} {sc sc' : Scope}
  {ss ss' : Scopes} {v : String}

theorem Scope.Lets.grow (h : sc.Lets leak v) (hg : sc.Grows sc') : sc'.Lets leak v := fun ht =>
  (h (hg.isThread ▸ ht)).imp_left (hg.captures.subset ·)

namespace Scopes

theorem Visible.grow (hg : Grow ss ss') : ∀ {ws : List (List String)}, Visible leak ws ss v →
    Visible leak ws ss' v := by
  induction hg with
  | nil => exact fun h => h
  | cons hab _ ih =>
    intro ws h
    cases ws with
    | nil => exact h
    | cons w ws =>
      obtain ⟨c, -, hc⟩ := hab.hoisted
      refine h.imp_right (.imp (fun h => ?_) fun h => ⟨ih h.1, h.2.grow hab⟩)
      rw [hc, Code.declared_append]
      exact List.mem_append_left _ h

theorem Visible.write (h : Visible leak (w :: ws) ss v) : Visible leak ((w ++ d) :: ws) ss v := by
  cases ss with
  | nil => exact h
  | cons sc ss => exact h.imp_left (List.mem_append_left _)

theorem Visible.of_write (h : Visible leak ((w ++ d) :: ws) ss v) :
    v ∈ d ∨ Visible leak (w :: ws) ss v := by
  cases ss with
  | nil => cases h
  | cons sc ss =>
    rcases h with h | h
    · exact (List.mem_append.mp h).elim (fun h => .inr (.inl h)) .inl
    · exact .inr (.inr h)

end Scopes

namespace Scope.Sees

/-- More is declared in the block. -/
theorem write (h : sc.Sees leak w ws ss) (hd : ∀ v ∈ d, (Expr.ofVar v).isVariable = true) :
    sc.Sees leak (w ++ d) ws ss := by
  refine ⟨fun v hv => ?_, fun slot value hb v hv => ?_, fun v hv => ?_⟩
  · simp only [List.append_assoc, List.mem_append] at hv
    rcases hv with hv | hv | hv
    · exact h.names v (List.mem_append_left _ hv)
    · exact hd v hv
    · exact h.names v (List.mem_append_right _ hv)
  · exact (h.bound slot value hb v hv).imp_left Visible.write
  · exact (h.waiting v hv).imp_left (List.mem_append_left _)

/-- Captures are added here, and anything that stays visible outside. -/
theorem grow (h : sc.Sees leak w ws ss) (hs : sc.SameAs sc') (hg : sc.Grows sc')
    (ht : Grow ss ss') : sc'.Sees leak w ws ss' := by
  refine ⟨hs.hoisted ▸ h.names, fun slot value hb v hv => ?_, fun v hv => ?_⟩
  · exact (h.bound slot value (hs.bindings ▸ hb) v hv).imp_left (Visible.grow (.cons hg ht))
  · exact (h.waiting v (hs.hoisted ▸ hv)).imp_right fun h => ⟨h.1.grow ht, h.2.grow hg⟩

end Scope.Sees

namespace Scopes.Sighted

theorem length_eq (h : Sighted leak ws ss) : ws.length = ss.length := by
  induction h with
  | nil => rfl
  | cons _ _ ih => rw [List.length_cons, List.length_cons, ih]

theorem drop (h : Sighted leak ws ss) (hidden : Nat) :
    Sighted leak (ws.drop hidden) (ss.drop hidden) := by
  induction h generalizing hidden with
  | nil => simpa using .nil
  | cons h rest ih =>
    cases hidden with
    | zero => exact .cons h rest
    | succ hidden => exact ih hidden

/-- A visible variable can be handed to a thread. -/
theorem isVariable (h : Sighted leak ws ss) (hv : Visible leak ws ss v) :
    (Expr.ofVar v).isVariable = true := by
  induction h with
  | nil => cases hv
  | cons h _ ih =>
    rcases hv with hv | hv | hv
    · exact h.names v (List.mem_append_left _ hv)
    · exact h.names v (List.mem_append_right _ hv)
    · exact ih hv.1

theorem write (h : Sighted leak (w :: ws) ss) (hd : ∀ v ∈ d, (Expr.ofVar v).isVariable = true) :
    Sighted leak ((w ++ d) :: ws) ss := by
  cases h with
  | cons h rest => exact .cons (h.write hd) rest

theorem visible (h : Sighted leak (w :: ws) ss) (hv : v ∈ w) : Visible leak (w :: ws) ss v := by
  cases h with
  | cons => exact .inl hv

/-- A value that is found is made from visible variables: the threads between it and the reader
capture it. -/
theorem lookup {slot : Endpoint} {value : Expr} (h : Sighted leak ws ss)
    (hl : lookup? slot ss = some (value, ss')) :
    Sighted leak ws ss' ∧ ∀ v ∈ value.vars, Visible leak ws ss' v ∧ (value = .ofVar v ∨ leak v) := by
  induction h generalizing ss' with
  | nil => cases hl
  | @cons w ws sc ss h rest ih =>
    rw [lookup?] at hl
    split at hl
    · rename_i e he
      cases hl
      exact ⟨.cons h rest, h.bound slot _ (Assoc.mem_of_lookup he)⟩
    · split at hl
      · rename_i e ts hfound
        cases hl
        obtain ⟨hrest, hvars⟩ := ih hfound
        have hgrow := lookup?_grow hfound
        by_cases hc : (sc.isThread && value.isVariable) = true
        · rw [if_pos hc]
          refine ⟨.cons (h.grow (sc.capture_sameAs _) (.capture sc _) hgrow) hrest,
            fun v hv => ⟨.inr (.inr ⟨(hvars v hv).1, fun _ => ?_⟩), (hvars v hv).2⟩⟩
          refine (hvars v hv).2.imp_left fun he => ?_
          rw [he, Expr.text_ofVar, Scope.capture]
          split
          · assumption
          · simp
        · rw [if_neg hc]
          refine ⟨.cons (h.grow (.refl sc) (.refl sc) hgrow) hrest,
            fun v hv => ⟨.inr (.inr ⟨(hvars v hv).1, fun ht => ?_⟩), (hvars v hv).2⟩⟩
          -- a thread captures a variable
          refine (hvars v hv).2.imp_left fun he => absurd ?_ hc
          rw [ht, he, hrest.isVariable (hvars v hv).1, Bool.and_self]
      · cases hl

theorem fetch {s : State} (h : Sighted leak ws s.scopes) (slot : Endpoint) :
    Sighted leak ws (s.fetch slot).2.scopes ∧
      ∀ e ∈ (s.fetch slot).1, ∀ v ∈ e.vars, Visible leak ws (s.fetch slot).2.scopes v := by
  unfold State.fetch
  split
  · rename_i value ss hl
    obtain ⟨h', hvars⟩ := h.lookup hl
    refine ⟨h', fun e he v hv => ?_⟩
    cases he
    exact (hvars v hv).1
  · exact ⟨h, fun e he => nomatch he⟩

/-- A value made from visible variables is bound. -/
theorem bind (h : Sighted leak (w :: ws) ss) {slot : Endpoint} {value : Expr}
    (hvars : ∀ v ∈ value.vars, Visible leak (w :: ws) ss v ∧ (value = .ofVar v ∨ leak v)) :
    Sighted leak (w :: ws) (Scopes.bind slot value ss) := by
  cases h with
  | cons h rest =>
    refine .cons ⟨h.names, fun slot' value' hb v hv => ?_, h.waiting⟩ rest
    rcases List.mem_cons.mp hb with hb | hb
    · cases hb
      exact hvars v hv
    · exact h.bound slot' value' hb v hv

/-- The outer scopes are exchanged for grown ones. -/
theorem replace (h : Sighted leak ws ss) : ∀ {hidden : Nat} {ts : Scopes},
    Sighted leak (ws.drop hidden) ts → Grow (ss.drop hidden) ts →
      Sighted leak ws (ss.take hidden ++ ts) := by
  induction h with
  | nil =>
    intro hidden ts ht _
    simpa using ht
  | @cons w ws sc ss h rest ih =>
    intro hidden ts ht hg
    cases hidden with
    | zero => exact ht
    | succ hidden =>
      have hgrow : Grow ss (ss.take hidden ++ ts) := by
        conv_lhs => rw [← List.take_append_drop hidden ss]
        exact Grow.append hg
      exact .cons (h.grow (.refl sc) (.refl sc) hgrow) (ih ht hg)

end Scopes.Sighted

/-! ### Code that fits -/

/-- The code may stand in the current block behind the declarations `w`; `ss` are the scopes
afterwards. -/
structure Code.Fits (leak : String → Prop) (w : List String) (ws : List (List String)) (ss : Scopes)
    (code : Code) : Prop where
  scopes : Sighted leak ((w ++ code.declared) :: ws) ss
  free   : ∀ v ∈ code.free [], Visible leak (w :: ws) ss v

namespace Code.Fits

variable {c e : Code}

theorem done (h : Sighted leak (w :: ws) ss) : Code.done.Fits leak w ws ss :=
  ⟨by simpa [declared] using h, fun v hv => nomatch hv⟩

theorem append (hc : c.Fits leak w ws ss) (hg : Grow ss ss')
    (he : e.Fits leak (w ++ c.declared) ws ss') : (c ++ e).Fits leak w ws ss' := by
  refine ⟨by simpa using he.scopes, fun v hv => ?_⟩
  rcases mem_free_append hv with hv | ⟨hv, hn⟩
  · exact (hc.free v hv).grow hg
  · exact (he.free v hv).of_write.resolve_left hn

/-- A variable is declared with a value made from visible variables. -/
theorem declare {slot : Endpoint} {value : Expr} (h : Sighted leak (w :: ws) ss)
    (hv : (Expr.ofVar v).isVariable = true)
    (hvars : ∀ u ∈ value.vars, Visible leak (w :: ws) ss u) :
    (Code.declare slot v value .done).Fits leak w ws (Scopes.bind slot (.ofVar v) ss) := by
  have hw : Sighted leak ((w ++ [v]) :: ws) ss := h.write (by simpa using hv)
  refine ⟨hw.bind fun u hu => ?_, fun u hu => ?_⟩
  · obtain rfl := List.mem_singleton.mp hu
    exact ⟨hw.visible (by simp), .inl rfl⟩
  · simp only [Code.free, List.filter_nil, List.append_nil] at hu
    exact (hvars u hu).grow ((Grow.refl ss).bind _ _)

/-- Code that is made with scopes hidden fits where they are open again: it stands in the current
block, or waits in an outer one. -/
theorem raise {s t : State} {hidden : Nat} {w' : List String} {ws' : List (List String)}
    (h : Sighted leak (w :: ws) s.scopes) (hdrop : (w :: ws).drop hidden = w' :: ws')
    (hc : c.Fits leak w' ws' t.scopes) (hflat : c.Flat)
    (hg : Grow (s.lower hidden).scopes t.scopes)
    (hwait : Walk.hoisted t = Walk.hoisted (s.lower hidden)) :
    (s.raise hidden c t).1.Fits leak w ws (s.raise hidden c t).2.scopes := by
  unfold State.raise
  split
  · rename_i h0
    subst h0
    cases hdrop
    exact hc
  · refine .done (h.replace ?_ (hg.modifyTop fun sc => ⟨rfl, rfl, List.suffix_rfl, List.prefix_rfl, c,
      hflat, rfl⟩))
    have hlow := h.drop hidden
    obtain ⟨scopes, counter, reads⟩ := t
    rw [hdrop] at hlow ⊢
    simp only [State.lower, Walk.hoisted] at hg hwait
    generalize List.drop hidden s.scopes = low at hlow hg hwait
    cases hg with
    | nil => cases hlow
    | @cons a b low high hab htail =>
      cases hlow with
      | cons ha _ =>
        cases hc.scopes with
        | cons hb hrest =>
          refine .cons ⟨fun v hv => hb.names v ?_, fun slot value hm v hv => ?_, fun v hv => ?_⟩
            hrest
          · simp only [declared_append, List.mem_append] at hv ⊢
            tauto
          · refine (hb.bound slot value hm v hv).imp_left fun hvis => ?_
            simp only [Visible, List.mem_append, declared_append] at hvis ⊢
            exact hvis.elim (fun h => h.imp_right fun h => .inl (.inr h)) fun h =>
              .inr (h.imp_left .inl)
          · -- what waited before is older than the new code
            rcases mem_free_append hv with hv | ⟨hv, hn⟩
            · have hsame : b.hoisted = a.hoisted := hwait
              refine (ha.waiting v (hsame ▸ hv)).imp_right fun h => ⟨h.1.grow htail, ?_⟩
              have hlets : b.Lets leak v := h.2.grow hab
              exact hlets
            · exact (hc.free v hv).imp_right fun h => h.resolve_left hn

end Code.Fits

/-! ### Reading -/

section

variable {nodes : List Node} {connections : List Connection} {x : Index}

theorem Evaluation.literal_vars {n : PlacedNode} {t : PortTemplate} {value : Expr}
    (h : literal n t = .ok value) : value.vars = [] := by
  unfold literal at h
  dsimp only at h
  split at h
  · cases h
    rfl
  · cases h

/-- The values of a node without statements are made from its inputs. -/
theorem Evaluation.mem_inputs_of_value {n : PlacedNode} {r : Recipe} {inputs : Inputs}
    {s s' : State} {em : Emission} (hvalue : r.isValue = true)
    (hclosed : ∀ t ∈ r.templates, t.freshes = [])
    (hem : emit (r.outline x n) inputs s = .ok (em, s')) {name : String} {value : Expr}
    (hm : (name, value) ∈ em.outputs) (hv : v ∈ value.vars) : v ∈ inputs.vars := by
  obtain ⟨-, -, hout, -⟩ := emit_ok hem
  obtain ⟨⟨name', out⟩, hmem, ho⟩ := exists_of_mem_mapM hout hm
  have hcopy : ∀ {i}, outputValue inputs em.vars (name', .copy i) = .ok (name, value) →
      v ∈ inputs.vars := by
    intro i h
    simp only [outputValue] at h
    split at h
    · rename_i e he
      cases h
      exact Inputs.mem_vars_of_lookup he hv
    · cases h
  have hexpr : ∀ {t : Template}, t.freshes = [] →
      outputValue inputs em.vars (name', .expr t) = .ok (name, value) → v ∈ inputs.vars := by
    intro t ht h
    cases h
    exact (Template.mem_vars_fill hv).resolve_right (by simp [ht])
  cases r with
  | expression t output =>
    cases List.mem_singleton.mp hmem
    exact hexpr (hclosed t (.head _)) ho
  | constant type key output =>
    simp only [Recipe.outline] at hmem
    split at hmem
    · cases List.mem_singleton.mp hmem
      exact hexpr rfl ho
    · cases hmem
  | reroute =>
    cases List.mem_singleton.mp hmem
    exact hcopy ho
  | _ => cases hvalue

/-- The temporaries of a node fit. -/
theorem Evaluation.declare_fits {n : PlacedNode}
    (hstem : Text.isIdentifier n.definition.varStem.toList = true) :
    ∀ {outputs : List (String × Expr)} {s : State} {w : List String},
      Sighted leak (w :: ws) s.scopes →
      (∀ name value, (name, value) ∈ outputs → ∀ v ∈ value.vars, Visible leak (w :: ws) s.scopes v) →
      (declare n outputs s).1.Fits leak w ws (declare n outputs s).2.scopes
  | [], _, _, h, _ => .done h
  | (name, value) :: outputs, s, w, h, hvars => by
    rw [declare]
    split
    · exact declare_fits hstem h fun name value hm => hvars name value (.tail _ hm)
    · rename_i port hp
      have hhead : (Code.declare ⟨n.node.id, port.id⟩ (s.freshVar n.definition.varStem).1 value
          .done).Fits leak w ws (Scopes.bind ⟨n.node.id, port.id⟩
            (.ofVar (s.freshVar n.definition.varStem).1) s.scopes) :=
        .declare h (Expr.isVariable_fresh hstem _) (hvars name value (.head _))
      let bound := (s.freshVar n.definition.varStem).2.bind ⟨n.node.id, port.id⟩
        (.ofVar (s.freshVar n.definition.varStem).1)
      have htail : (declare n outputs bound).1.Fits leak _ ws (declare n outputs bound).2.scopes :=
        declare_fits hstem hhead.scopes fun name value hm v hv =>
          ((hvars name value (.tail _ hm) v hv).grow ((Grow.refl s.scopes).bind _ _)).write
      exact hhead.append (declare_grow n outputs bound).1 htail

/-- What is read fits, and it is made from visible variables. -/
theorem Evaluation.sighted (hb : Index.Built .builtin nodes connections x)
    (hports : ∀ node ∈ nodes, Catalog.builtin.Furnishes node) (leak : String → Prop) (pass : Pass) :
    Fetching x pass
      (fun _ _ s value code s' => ∀ w ws, Sighted leak (w :: ws) s.scopes →
        code.Fits leak w ws s'.scopes ∧
          ∀ e ∈ value, ∀ v ∈ e.vars, Visible leak ((w ++ code.declared) :: ws) s'.scopes v)
      (fun _ _ _ inputs s inputs' code s' => ∀ w ws, Sighted leak (w :: ws) s.scopes →
        code.Fits leak w ws s'.scopes ∧
          ∀ v ∈ Inputs.vars inputs', v ∈ Inputs.vars inputs ∨
            Visible leak ((w ++ code.declared) :: ws) s'.scopes v) := by
  -- a node that is read and has no exec port makes a value of its inputs
  have hvalue : ∀ {id n r inputs s s' em name value v}, x.node? id = some n → n.hasExec = false →
      Recipe.ofType? n.node.nodeType = some r → emit (r.outline x n) inputs s = .ok (em, s') →
      (name, value) ∈ em.outputs → v ∈ Expr.vars value → v ∈ Inputs.vars inputs := by
    intro id n r inputs s s' em name value v hn hx hr hem hm hv
    obtain ⟨hd, htype⟩ := hb.mem_definitions hn
    have hagrees := (Catalog.builtin_sound n.definition hd).recipe r (by rw [htype]; exact hr)
    rw [hb.hasExec_definition hports hn] at hx
    exact mem_inputs_of_value (by rw [hagrees.value, hx]; rfl) hagrees.closed hem hm hv
  constructor
  case bound =>
    intro pending e s n value ss hn hl w ws h
    rw [note_scopes] at hl
    obtain ⟨h', hvars⟩ := h.lookup hl
    refine ⟨.done h', fun e' he v hv => ?_⟩
    cases he
    simpa [Code.declared] using (hvars v hv).1
  case inline =>
    intro pending e s n r inputs code s₁ em s₂ value hn _ hx _ _ hr _ hI hem hout w ws h
    rw [← note_scopes x pass n s] at h
    obtain ⟨hfits, hinputs⟩ := hI w ws h
    rw [emit_scopes hem]
    refine ⟨hfits, fun e' he v hv => ?_⟩
    cases he
    exact (hinputs v (hvalue hn hx hr hem (Assoc.mem_of_lookup hout) hv)).resolve_left (by simp [Inputs.vars])
  case temporary =>
    intro pending e s n r hidden inputs code s₁ em s₂ value hn _ hx _ _ hr hhidden hran hI hem _ made
      placed w ws h
    rw [← note_scopes x pass n s] at h
    -- the scope the temporary belongs to is among the open ones
    have hlen : hidden < (w :: ws).length := by
      have := h.length_eq
      simp only [top] at hhidden
      simp only [List.length_cons] at this ⊢
      omega
    obtain ⟨w', ws', hdrop⟩ := List.exists_cons_of_ne_nil
      (List.ne_nil_of_length_pos (by rw [List.length_drop]; omega) : (w :: ws).drop hidden ≠ [])
    have hlow : Sighted leak (w' :: ws') ((note x pass n s).lower hidden).scopes :=
      hdrop ▸ h.drop hidden
    obtain ⟨hgrow, hflat⟩ := (growing x pass).resolved hran
    obtain ⟨hdgrow, hdflat⟩ := declare_grow n em.outputs s₂
    obtain ⟨hfits, hinputs⟩ := hI w' ws' hlow
    have hmade : made.1.Fits leak (w' ++ code.declared) ws' made.2.scopes := by
      refine declare_fits (Catalog.builtin_sound _ (hb.mem_definitions hn).1).stem
        (emit_scopes hem ▸ hfits.scopes) fun name value hm v hv => ?_
      rw [emit_scopes hem]
      exact (hinputs v (hvalue hn hx hr hem hm hv)).resolve_left (by simp [Inputs.vars])
    rw [emit_scopes hem] at hdgrow
    have hwait : Walk.hoisted made.2 = Walk.hoisted ((note x pass n s).lower hidden) := by
      rw [hoisted_declare, ← (waiting x pass).resolved hran]
      simp only [Walk.hoisted, emit_scopes hem]
    have hplaced : placed.1.Fits leak w ws placed.2.scopes :=
      .raise h hdrop (hfits.append hdgrow hmade) (by simpa using ⟨hflat, hdflat⟩)
        (hgrow.trans hdgrow) hwait
    obtain ⟨hfetch, hvars⟩ := hplaced.scopes.fetch e
    exact ⟨⟨hfetch, fun v hv => (hplaced.free v hv).grow (State.fetch_grow _ e)⟩, hvars⟩
  case nil =>
    intro pending n inputs s w ws h
    exact ⟨.done h, fun v hv => .inl hv⟩
  case skip => exact fun _ hI => hI
  case connected =>
    intro pending n t ts inputs s e value code s₁ inputs' more s₂ _ _ hR hran hI w ws h
    obtain ⟨hfits, hvars⟩ := hR w ws h
    obtain ⟨hfits', hinputs⟩ := hI _ ws hfits.scopes
    have hgrow := ((growing x pass).resolved hran).1
    refine ⟨hfits.append hgrow hfits', fun v hv => ?_⟩
    rw [Code.declared_append, ← List.append_assoc]
    rcases hinputs v hv with hv | hv
    · rcases Inputs.mem_vars_set hv with ⟨e', he, hv⟩ | hv
      · exact .inr ((hvars e' he v hv).grow hgrow).write
      · exact .inl hv
    · exact .inr hv
  case literal =>
    intro pending n t ts inputs s value inputs' code s' _ _ hlit hI w ws h
    obtain ⟨hfits, hinputs⟩ := hI w ws h
    refine ⟨hfits, fun v hv => (hinputs v hv).imp_left fun hv => ?_⟩
    rcases Inputs.mem_vars_set hv with ⟨e', he, hv⟩ | hv
    · cases he
      rw [literal_vars hlit] at hv
      cases hv
    · exact hv

end

end VisualScript
