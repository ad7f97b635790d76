import VisualScript.Proofs.Introductions

/-!
# Proofs — Stock

The names of generated variables.  A fresh name is a stem that does not end in a digit, followed by a
number that is used once, so it differs from all names before it (`Taken`).

`Scopes.stock` collects the names in use, from the innermost open block outwards.  No name is in
stock twice, and what is bound in a block is made from names in stock there or further out
(`State.Stocked`).  A thread captures from outside: what it is handed is a name in stock outside of
it, unless a value that is not a variable reads like one and is `quoted`.

* `Evaluation.stocking`: what is read keeps the stock in order, and it is made from names in stock.
-/

namespace VisualScript

open Evaluation Walk Scopes

/-! ### Numbered names -/

/-- The text does not end in a digit. -/
def Unnumbered (s : String) : Prop := (s.toList.getLast?.all fun c => !c.isDigit) = true

instance (s : String) : Decidable (Unnumbered s) := inferInstanceAs (Decidable (_ = _))

namespace Unnumbered

variable {s a b : String}

theorem takeWhile_isDigit (h : Unnumbered s) : s.toList.reverse.takeWhile Char.isDigit = [] := by
  cases hs : s.toList.reverse with
  | nil => rfl
  | cons c cs =>
    have hlast : s.toList.getLast? = some c := by rw [← List.head?_reverse, hs]; rfl
    have hc : c.isDigit = false := by simpa [Unnumbered, hlast] using h
    rw [List.takeWhile_cons, hc]
    rfl

/-- The number can be read back from the end. -/
theorem takeWhile_numbered (h : Unnumbered s) (k : Nat) :
    (s ++ toString k).toList.reverse.takeWhile Char.isDigit = (toString k).toList.reverse := by
  rw [String.toList_append, List.reverse_append, List.takeWhile_append_of_pos, h.takeWhile_isDigit,
    List.append_nil]
  exact fun c hc => isDigit_of_mem_toString (List.mem_reverse.mp hc)

theorem number_eq (ha : Unnumbered a) (hb : Unnumbered b) {i j : Nat}
    (h : a ++ toString i = b ++ toString j) : i = j := by
  have hdigits := ha.takeWhile_numbered i
  rw [h, hb.takeWhile_numbered j, List.reverse_inj] at hdigits
  exact (toString_inj (String.toList_inj.mp hdigits)).symm

end Unnumbered

/-- The name is not made any more when numbering has come to `k`. -/
def Taken (k : Nat) (v : String) : Prop :=
  ∀ (stem : String) (j : Nat), Unnumbered stem → k ≤ j → v ≠ stem ++ toString j

namespace Taken

theorem mono {k k' : Nat} {v : String} (h : Taken k v) (hk : k ≤ k') : Taken k' v :=
  fun stem j hs hj => h stem j hs (Nat.le_trans hk hj)

theorem of_unnumbered {v : String} (h : Unnumbered v) (k : Nat) : Taken k v := by
  rintro stem j hs - rfl
  have hdigits := h.takeWhile_isDigit
  rw [hs.takeWhile_numbered j, List.reverse_eq_nil_iff] at hdigits
  have hne : (Nat.repr j).toList ≠ [] := by
    rw [Nat.toList_repr]
    exact Nat.toDigits_ne_nil
  exact hne hdigits

theorem of_number {stem : String} (hs : Unnumbered stem) (k : Nat) :
    Taken (k + 1) (stem ++ toString k) := by
  intro stem' j hs' hj he
  have := hs.number_eq hs' he
  omega

end Taken

/-- The names of the parameters that an entry node with all its ports has. -/
def Definition.paramNames (d : Definition) : List String :=
  (d.outputs.filter (·.kind == .data)).map fun t => Name.identifier t.name

/-- No stem and no parameter ends in a digit, and the parameters of an entry differ. -/
theorem Catalog.builtin_names : ∀ d ∈ builtin.definitions, Unnumbered d.varStem ∧
    (d.isEntry = true → d.paramNames.Nodup ∧ ∀ v ∈ d.paramNames, Unnumbered v) := by
  decide +kernel

/-- The stems of the fresh variables of a node do not end in a digit. -/
theorem Recipe.unnumbered_of_mem_fresh {x : Index} {n : PlacedNode} {r : Recipe} {stem : String}
    (hstem : Unnumbered n.definition.varStem) (h : stem ∈ (r.outline x n).fresh) :
    Unnumbered stem := by
  rcases stem_of_mem_fresh h with rfl | h
  · exact hstem
  · have hwords : ∀ word ∈ ["i", "idx", "elem"], Unnumbered word := by decide
    exact hwords stem h

/-! ### The names in stock -/

/-- The names in use in the open blocks: those of what is written there, and of what waits. -/
def Scopes.stock : List (List String) → Scopes → List String
  | w :: ws, sc :: ss => w ++ (sc.hoisted.issued ++ stock ws ss)
  | _,       _        => []

section

variable {quoted : String → Prop} {w w' d own own' outer outer' held : List String}
  {ws : List (List String)} {sc sc' : Scope} {ss ss' : Scopes} {s t : State} {v : String}

namespace Scopes

theorem stock_append : ∀ {ws₁ ws₂ : List (List String)} {ss₁ ss₂ : Scopes},
    ws₁.length = ss₁.length →
      stock (ws₁ ++ ws₂) (ss₁ ++ ss₂) = stock ws₁ ss₁ ++ stock ws₂ ss₂
  | [], _, [], _, _ => rfl
  | w :: ws₁, ws₂, sc :: ss₁, ss₂, h => by
    have h : ws₁.length = ss₁.length := by simpa using h
    simp only [List.cons_append, stock, stock_append h, List.append_assoc]

theorem stock_sameAs (h : List.Forall₂ Scope.SameAs ss ss') :
    ∀ ws : List (List String), stock ws ss' = stock ws ss := by
  induction h with
  | nil => exact fun _ => rfl
  | cons hs _ ih =>
    intro ws
    cases ws with
    | nil => rfl
    | cons w ws => rw [stock, stock, ih, hs.hoisted]

@[simp] theorem stock_bind (slot : Endpoint) (value : Expr) (ws : List (List String))
    (ss : Scopes) : stock ws (Scopes.bind slot value ss) = stock ws ss := by
  cases ss <;> cases ws <;> rfl

/-- What is in stock stays there. -/
theorem mem_stock_grow (hg : Grow ss ss') : ∀ {ws : List (List String)}, v ∈ stock ws ss →
    v ∈ stock ws ss' := by
  induction hg with
  | nil => exact fun h => h
  | cons hab _ ih =>
    intro ws h
    cases ws with
    | nil => exact h
    | cons w ws =>
      obtain ⟨c, -, hc⟩ := hab.hoisted
      simp only [stock, List.mem_append, hc, Code.issued_append] at h ⊢
      exact h.imp_right (Or.imp .inl ih)

theorem mem_stock_write (hw : ∀ v ∈ w, v ∈ w') (h : v ∈ stock (w :: ws) ss) :
    v ∈ stock (w' :: ws) ss := by
  cases ss with
  | nil => exact h
  | cons sc ss =>
    rcases List.mem_append.mp h with h | h
    · exact List.mem_append_left _ (hw v h)
    · exact List.mem_append_right _ h

theorem stock_write_perm (sc : Scope) (ss : Scopes) :
    (stock ((w ++ d) :: ws) (sc :: ss)).Perm (d ++ stock (w :: ws) (sc :: ss)) := by
  simp only [stock, List.append_assoc]
  exact List.perm_append_comm_assoc _ _ _

end Scopes

/-- What is bound in a scope is made from the names `own`, and what it has captured is one of the
names `outer`.  A value that is not just a variable reads like one only if it is quoted. -/
structure Scope.Owns (quoted : String → Prop) (own outer : List String) (sc : Scope) : Prop where
  bound    : ∀ b ∈ sc.bindings,
    (∀ v ∈ b.2.vars, v ∈ own) ∧ (b.2 = .ofVar b.2.text ∨ quoted b.2.text)
  captured : ∀ c ∈ sc.captures, c ∈ outer ∨ quoted c
  once     : sc.captures.Nodup

theorem Scope.Owns.mono (h : sc.Owns quoted own outer) (ho : ∀ v ∈ own, v ∈ own')
    (hu : ∀ v ∈ outer, v ∈ outer') : sc.Owns quoted own' outer' where
  bound := fun b hb => (h.bound b hb).imp_left fun h v hv => ho v (h v hv)
  captured := fun c hc => (h.captured c hc).imp_left (hu c)
  once := h.once

theorem Scope.Owns.capture (h : sc.Owns quoted own outer) (hv : v ∈ outer ∨ quoted v) :
    (sc.capture v).Owns quoted own outer := by
  unfold Scope.capture
  split
  · exact h
  · rename_i hnew
    refine ⟨h.bound, fun c hc => ?_, ?_⟩
    · rcases List.mem_append.mp hc with hc | hc
      · exact h.captured c hc
      · exact List.mem_singleton.mp hc ▸ hv
    · exact List.nodup_append.mpr ⟨h.once, List.nodup_singleton v, fun a ha b hb he =>
        hnew (List.mem_singleton.mp hb ▸ he ▸ ha)⟩

/-- Every open scope owns what is bound in it. -/
inductive Scopes.Owned (quoted : String → Prop) : List (List String) → Scopes → Prop where
  | nil : Owned quoted [] []
  | cons {w : List String} {ws : List (List String)} {sc : Scope} {ss : Scopes}
      (top : sc.Owns quoted (stock (w :: ws) (sc :: ss)) (stock ws ss))
      (rest : Owned quoted ws ss) : Owned quoted (w :: ws) (sc :: ss)

namespace Scopes.Owned

theorem length_eq (h : Owned quoted ws ss) : ws.length = ss.length := by
  induction h with
  | nil => rfl
  | cons _ _ ih => rw [List.length_cons, List.length_cons, ih]

theorem drop (h : Owned quoted ws ss) (hidden : Nat) :
    Owned quoted (ws.drop hidden) (ss.drop hidden) := by
  induction h generalizing hidden with
  | nil => simpa using .nil
  | cons top rest ih =>
    cases hidden with
    | zero => exact .cons top rest
    | succ hidden => exact ih hidden

theorem write (h : Owned quoted (w :: ws) ss) (hw : ∀ v ∈ w, v ∈ w') :
    Owned quoted (w' :: ws) ss := by
  cases h with
  | cons top rest => exact .cons (top.mono (fun _ hv => mem_stock_write hw hv) fun _ hv => hv) rest

/-- A value that is found is made from names in stock, and the threads that capture it take it from
outside. -/
theorem lookup {slot : Endpoint} {value : Expr} (h : Owned quoted ws ss)
    (hl : lookup? slot ss = some (value, ss')) : Owned quoted ws ss' ∧
      (∀ v ∈ value.vars, v ∈ stock ws ss) ∧ (value = .ofVar value.text ∨ quoted value.text) := by
  induction h generalizing ss' with
  | nil => cases hl
  | @cons w ws sc ss top rest ih =>
    rw [lookup?] at hl
    split at hl
    · rename_i e he
      cases hl
      obtain ⟨hvars, hform⟩ := top.bound _ (Assoc.mem_of_lookup he)
      exact ⟨.cons top rest, hvars, hform⟩
    · split at hl
      · rename_i e ts hfound
        cases hl
        obtain ⟨hrest, hvars, hform⟩ := ih hfound
        have hstock := stock_sameAs (lookup?_sameAs hfound) ws
        refine ⟨.cons ?_ hrest, fun v hv => ?_, hform⟩
        · rw [stock, hstock]
          have hcapture : value.text ∈ stock ws ss ∨ quoted value.text := by
            refine hform.imp_left fun he => hvars _ ?_
            rw [he, Expr.text_ofVar]
            exact .head _
          split
          · rw [← (sc.capture_sameAs value.text).hoisted]
            exact top.capture hcapture
          · exact top
        · exact List.mem_append_right _ (List.mem_append_right _ (hvars v hv))
      · cases hl

theorem bind (h : Owned quoted (w :: ws) ss) {slot : Endpoint} {value : Expr}
    (hvars : ∀ v ∈ value.vars, v ∈ stock (w :: ws) ss)
    (hform : value = .ofVar value.text ∨ quoted value.text) :
    Owned quoted (w :: ws) (Scopes.bind slot value ss) := by
  cases h with
  | cons top rest =>
    refine .cons ⟨fun b hb => ?_, top.captured, top.once⟩ rest
    rcases List.mem_cons.mp hb with rfl | hb
    · exact ⟨hvars, hform⟩
    · exact top.bound b hb

/-- The outer scopes are exchanged for grown ones. -/
theorem replace (h : Owned quoted ws ss) : ∀ {hidden : Nat} {ts : Scopes},
    Owned quoted (ws.drop hidden) ts → Grow (ss.drop hidden) ts →
      Owned quoted ws (ss.take hidden ++ ts) := by
  induction h with
  | nil =>
    intro hidden ts ht _
    simpa using ht
  | @cons w ws sc ss top rest ih =>
    intro hidden ts ht hg
    cases hidden with
    | zero => exact ht
    | succ hidden =>
      have hgrow : Grow ss (ss.take hidden ++ ts) := by
        conv_lhs => rw [← List.take_append_drop hidden ss]
        exact Grow.append hg
      exact .cons (top.mono (fun _ hv => mem_stock_grow (.cons (.refl sc) hgrow) hv)
        fun _ hv => mem_stock_grow hgrow hv) (ih ht hg)

end Scopes.Owned

/-! ### Stock in order -/

/-- No name is in stock twice, nor is one that is `held` elsewhere, and all are older than the names
to come. -/
structure State.Stocked (quoted : String → Prop) (held : List String) (ws : List (List String))
    (s : State) : Prop where
  distinct : (held ++ stock ws s.scopes).Nodup
  taken    : ∀ v ∈ held ++ stock ws s.scopes, Taken s.counter v
  owned    : Owned quoted ws s.scopes

namespace State.Stocked

/-- Names may move and go. -/
theorem subperm {held' : List String} {ws' : List (List String)} (h : s.Stocked quoted held ws)
    (hp : (held' ++ stock ws' t.scopes).Subperm (held ++ stock ws s.scopes))
    (hk : s.counter ≤ t.counter) (ho : Owned quoted ws' t.scopes) :
    t.Stocked quoted held' ws' := by
  obtain ⟨names, hperm, hsub⟩ := hp
  refine ⟨hperm.nodup_iff.mp (h.distinct.sublist hsub), fun v hv => ?_, ho⟩
  exact (h.taken v (hsub.subset (hperm.mem_iff.mpr hv))).mono hk

/-- The stock depends on the scopes and the number that comes next. -/
theorem congr (h : s.Stocked quoted held ws) (hs : t.scopes = s.scopes)
    (hk : s.counter ≤ t.counter) : t.Stocked quoted held ws :=
  h.subperm (by rw [hs]) hk (hs ▸ h.owned)

theorem freshVar (h : s.Stocked quoted held (w :: ws)) {stem : String} (hs : Unnumbered stem) :
    (s.freshVar stem).2.Stocked quoted held ((w ++ [(s.freshVar stem).1]) :: ws) := by
  obtain ⟨scopes, counter, reads⟩ := s
  cases h.owned with
  | @cons _ _ sc ss top rest =>
    have hperm : (held ++ stock ((w ++ [stem ++ toString counter]) :: ws) (sc :: ss)).Perm
        ((stem ++ toString counter) :: (held ++ stock (w :: ws) (sc :: ss))) :=
      ((stock_write_perm sc ss).append_left held).trans List.perm_middle
    refine ⟨hperm.nodup_iff.mpr (List.nodup_cons.mpr ⟨fun hm => ?_, h.distinct⟩),
      fun v hv => ?_, h.owned.write fun v hv => List.mem_append_left _ hv⟩
    · exact h.taken _ hm stem counter hs (Nat.le_refl _) rfl
    · rcases List.mem_cons.mp (hperm.mem_iff.mp hv) with rfl | hv
      · exact .of_number hs counter
      · exact (h.taken v hv).mono (Nat.le_succ counter)

theorem freshVars : ∀ {stems : List String} {s : State} {w : List String},
    s.Stocked quoted held (w :: ws) → (∀ stem ∈ stems, Unnumbered stem) →
      (s.freshVars stems).2.Stocked quoted held ((w ++ (s.freshVars stems).1) :: ws)
  | [], s, w, h, _ => by simpa [State.freshVars] using h
  | stem :: stems, s, w, h, hs => by
    have h₁ := freshVars (h.freshVar (hs stem (.head _))) fun a ha => hs a (.tail _ ha)
    rw [List.append_assoc] at h₁
    exact h₁

theorem fetch (h : s.Stocked quoted held ws) (slot : Endpoint) :
    (s.fetch slot).2.Stocked quoted held ws ∧
      ∀ e ∈ (s.fetch slot).1, ∀ v ∈ e.vars, v ∈ stock ws (s.fetch slot).2.scopes := by
  unfold State.fetch
  split
  · rename_i value ss hl
    obtain ⟨howned, hvars, -⟩ := h.owned.lookup hl
    have hstock := stock_sameAs (lookup?_sameAs hl) ws
    refine ⟨h.subperm (by rw [hstock]) (Nat.le_refl _) howned, fun e he v hv => ?_⟩
    obtain rfl := Option.some.inj he
    exact hstock ▸ hvars v hv
  · exact ⟨h, fun e he => by cases he⟩

theorem bind (h : s.Stocked quoted held (w :: ws)) {slot : Endpoint} {value : Expr}
    (hvars : ∀ v ∈ value.vars, v ∈ stock (w :: ws) s.scopes)
    (hform : value = .ofVar value.text ∨ quoted value.text) :
    (s.bind slot value).Stocked quoted held (w :: ws) :=
  h.subperm (by simpa [State.bind] using List.Subperm.refl _) (Nat.le_refl _)
    (h.owned.bind hvars hform)

theorem mem_stock (h : s.Stocked quoted held (w :: ws)) (hv : v ∈ w) :
    v ∈ stock (w :: ws) s.scopes := by
  obtain ⟨scopes, counter, reads⟩ := s
  cases h.owned with
  | cons => exact List.mem_append_left _ hv

/-- The temporaries of a node are new. -/
theorem declare {n : PlacedNode} (hstem : Unnumbered n.definition.varStem) :
    ∀ (outputs : List (String × Expr)) {s : State} {w : List String},
      s.Stocked quoted held (w :: ws) →
        (declare n outputs s).2.Stocked quoted held ((w ++ (declare n outputs s).1.issued) :: ws)
  | [], s, w, h => by simpa [Evaluation.declare, Code.issued] using h
  | (name, value) :: outputs, s, w, h => by
    rw [Evaluation.declare]
    split
    · exact declare hstem outputs h
    · rename_i port hp
      have h₁ := h.freshVar hstem
      have h₂ : ((s.freshVar n.definition.varStem).2.bind ⟨n.node.id, port.id⟩
          (.ofVar (s.freshVar n.definition.varStem).1)).Stocked quoted held
            ((w ++ [(s.freshVar n.definition.varStem).1]) :: ws) := by
        refine h₁.bind (fun v hv => h₁.mem_stock ?_) (.inl (by rw [Expr.text_ofVar]))
        rw [List.mem_singleton.mp hv]
        exact List.mem_append_right _ (.head _)
      have h₃ := declare hstem outputs h₂
      rw [List.append_assoc] at h₃
      exact h₃

/-- Names of scopes that are hidden are held. -/
theorem lower (h : s.Stocked quoted held ws) (hidden : Nat) :
    (s.lower hidden).Stocked quoted (held ++ stock (ws.take hidden) (s.scopes.take hidden))
      (ws.drop hidden) := by
  refine h.subperm ?_ (Nat.le_refl _) (h.owned.drop hidden)
  have hlen : (ws.take hidden).length = (s.scopes.take hidden).length := by
    rw [List.length_take, List.length_take, h.owned.length_eq]
  conv_rhs => rw [← List.take_append_drop hidden ws, ← List.take_append_drop hidden s.scopes,
    stock_append hlen, ← List.append_assoc]
  exact List.Subperm.refl _

/-- Code that is made with scopes hidden is written in the current block, or it waits. -/
theorem raise {hidden : Nat} {code : Code} {ws' : List (List String)}
    (h : s.Stocked quoted held (w :: ws)) (hdrop : (w :: ws).drop hidden = w' :: ws')
    (ht : t.Stocked quoted (held ++ stock ((w :: ws).take hidden) (s.scopes.take hidden))
      ((w' ++ code.issued) :: ws'))
    (hflat : code.Flat) (hg : Grow (s.lower hidden).scopes t.scopes) :
    (s.raise hidden code t).2.Stocked quoted held
      ((w ++ (s.raise hidden code t).1.issued) :: ws) := by
  unfold State.raise
  split
  · rename_i h0
    subst h0
    cases hdrop
    simpa [stock] using ht
  · have hlen : ((w :: ws).take hidden).length = (s.scopes.take hidden).length := by
      rw [List.length_take, List.length_take, h.owned.length_eq]
    -- the code moves from what is written to what waits
    have hwait : (stock (w' :: ws')
        (modifyTop (fun sc => { sc with hoisted := sc.hoisted ++ code }) t.scopes)).Perm
          (stock ((w' ++ code.issued) :: ws') t.scopes) ∧
        Owned quoted (w' :: ws')
          (modifyTop (fun sc => { sc with hoisted := sc.hoisted ++ code }) t.scopes) := by
      obtain ⟨scopes, counter, reads⟩ := t
      cases ht.owned with
      | @cons _ _ sc ss top rest =>
        have hperm : (stock (w' :: ws') ({ sc with hoisted := sc.hoisted ++ code } :: ss)).Perm
            (stock ((w' ++ code.issued) :: ws') (sc :: ss)) := by
          simp only [stock, Code.issued_append, List.append_assoc]
          exact (List.perm_append_comm_assoc _ _ _).append_left _
        refine ⟨hperm, .cons ⟨fun b hb => ?_, top.captured, top.once⟩ rest⟩
        exact (top.bound b hb).imp_left fun hv v hm => hperm.mem_iff.mpr (hv v hm)
    have hgrow : Grow (s.scopes.drop hidden)
        (modifyTop (fun sc => { sc with hoisted := sc.hoisted ++ code }) t.scopes) :=
      hg.modifyTop fun sc => ⟨rfl, rfl, List.suffix_rfl, List.prefix_rfl, code, hflat, rfl⟩
    have howned := h.owned.replace (hdrop.symm ▸ hwait.2) hgrow
    have hstock : (held ++ stock (w :: ws) (s.scopes.take hidden ++
        modifyTop (fun sc => { sc with hoisted := sc.hoisted ++ code }) t.scopes)).Perm
          (held ++ stock ((w :: ws).take hidden) (s.scopes.take hidden) ++
            stock ((w' ++ code.issued) :: ws') t.scopes) := by
      conv_lhs => rw [← List.take_append_drop hidden (w :: ws), stock_append hlen, hdrop,
        ← List.append_assoc]
      exact hwait.1.append_left _
    simp only [Code.issued, List.append_nil]
    exact ht.subperm hstock.subperm (Nat.le_refl _) howned

end State.Stocked

end

/-! ### Reading -/

section

variable {nodes : List Node} {connections : List Connection} {x : Index} {quoted : String → Prop}

/-- A node that is read and has no exec port makes its values of its inputs. -/
theorem Index.Built.mem_inputs_of_value (hb : Index.Built .builtin nodes connections x)
    (hports : ∀ node ∈ nodes, Catalog.builtin.Furnishes node) {id : String} {n : PlacedNode}
    {r : Recipe} {inputs : Inputs} {s s' : State} {em : Emission} {name v : String} {value : Expr}
    (hn : x.node? id = some n) (hx : n.hasExec = false)
    (hr : Recipe.ofType? n.node.nodeType = some r)
    (hem : emit (r.outline x n) inputs s = .ok (em, s')) (hm : (name, value) ∈ em.outputs)
    (hv : v ∈ value.vars) : v ∈ inputs.vars := by
  obtain ⟨hd, htype⟩ := hb.mem_definitions hn
  have hagrees := (Catalog.builtin_sound n.definition hd).recipe r (by rw [htype]; exact hr)
  rw [hb.hasExec_definition hports hn] at hx
  exact Evaluation.mem_inputs_of_value (by rw [hagrees.value, hx]; rfl) hagrees.closed hem hm hv

/-- What is read keeps the stock in order, and it is made from names in stock. -/
theorem Evaluation.stocking (hb : Index.Built .builtin nodes connections x)
    (hports : ∀ node ∈ nodes, Catalog.builtin.Furnishes node) (quoted : String → Prop)
    (pass : Pass) :
    Fetching x pass
      (fun _ _ s value code s' => ∀ held w ws, s.Stocked quoted held (w :: ws) →
        s'.Stocked quoted held ((w ++ code.issued) :: ws) ∧
          ∀ e ∈ value, ∀ v ∈ e.vars, v ∈ stock ((w ++ code.issued) :: ws) s'.scopes)
      (fun _ _ _ inputs s inputs' code s' => ∀ held w ws, s.Stocked quoted held (w :: ws) →
        s'.Stocked quoted held ((w ++ code.issued) :: ws) ∧
          ∀ v ∈ Inputs.vars inputs', v ∈ Inputs.vars inputs ∨
            v ∈ stock ((w ++ code.issued) :: ws) s'.scopes) := by
  have hnote : ∀ {n s held ws}, State.Stocked quoted held ws s →
      (note x pass n s).Stocked quoted held ws := fun h =>
    h.congr (note_scopes x pass _ _) (Nat.le_of_eq (note_counter x pass _ _).symm)
  constructor
  case bound =>
    intro pending e s n value ss hn hl held w ws h
    have h := hnote (n := n) h
    obtain ⟨howned, hvars, -⟩ := h.owned.lookup hl
    have hstock := stock_sameAs (lookup?_sameAs hl) (w :: ws)
    simp only [Code.issued, List.append_nil]
    refine ⟨h.subperm (by rw [hstock]) (Nat.le_refl _) howned, fun e he v hv => ?_⟩
    obtain rfl := Option.some.inj he
    exact hstock ▸ hvars v hv
  case inline =>
    intro pending e s n r inputs code s₁ em s₂ value hn _ hx _ _ hr _ hI hem hout held w ws h
    obtain ⟨h₁, hinputs⟩ := hI held w ws (hnote h)
    refine ⟨h₁.congr (emit_scopes hem) (by rw [(emit_ok hem).2.1]; exact Nat.le_add_right _ _),
      fun e he v hv => ?_⟩
    obtain rfl := Option.some.inj he
    rw [emit_scopes hem]
    have hin := hb.mem_inputs_of_value hports hn hx hr hem (Assoc.mem_of_lookup hout) hv
    exact (hinputs v hin).resolve_left (by simp [Inputs.vars])
  case temporary =>
    intro pending e s n r hidden inputs code s₁ em s₂ value hn _ hx _ _ hr hhidden hran hI hem _ made
      placed held w ws h
    have h := hnote (n := n) h
    -- the scope the temporary belongs to is among the open ones
    have hlen : hidden < (w :: ws).length := by
      have := h.owned.length_eq
      simp only [top] at hhidden
      simp only [List.length_cons] at this ⊢
      omega
    obtain ⟨w', ws', hdrop⟩ := List.exists_cons_of_ne_nil
      (List.ne_nil_of_length_pos (by rw [List.length_drop]; omega) : (w :: ws).drop hidden ≠ [])
    obtain ⟨hgrow, hflat⟩ := (growing x pass).resolved hran
    obtain ⟨hdgrow, hdflat⟩ := declare_grow n em.outputs s₂
    rw [emit_scopes hem] at hdgrow
    obtain ⟨h₁, -⟩ := hI _ w' ws' (hdrop ▸ h.lower hidden)
    have h₂ := h₁.congr (emit_scopes hem) (by rw [(emit_ok hem).2.1]; exact Nat.le_add_right _ _)
    have h₃ : made.2.Stocked quoted _ ((w' ++ code.issued ++ made.1.issued) :: ws') :=
      h₂.declare (Catalog.builtin_names _ (hb.mem_definitions hn).1).1 em.outputs
    rw [List.append_assoc, ← Code.issued_append] at h₃
    have hplaced := h.raise hdrop h₃ (by simpa using ⟨hflat, hdflat⟩) (hgrow.trans hdgrow)
    exact hplaced.fetch e
  case nil =>
    intro pending n inputs s held w ws h
    simpa [Code.issued] using ⟨h, fun v hv => .inl hv⟩
  case skip => exact fun _ hI => hI
  case connected =>
    intro pending n t ts inputs s e value code s₁ inputs' more s₂ _ _ hR hran hI held w ws h
    obtain ⟨h₁, hvars⟩ := hR held w ws h
    obtain ⟨h₂, hinputs⟩ := hI held _ ws h₁
    have hgrow := ((growing x pass).resolved hran).1
    rw [Code.issued_append, ← List.append_assoc]
    refine ⟨h₂, fun v hv => ?_⟩
    rcases hinputs v hv with hv | hv
    · rcases Inputs.mem_vars_set hv with ⟨e', he, hv⟩ | hv
      · refine .inr (mem_stock_write (fun v hv => List.mem_append_left _ hv) ?_)
        exact mem_stock_grow hgrow (hvars e' he v hv)
      · exact .inl hv
    · exact .inr hv
  case literal =>
    intro pending n t ts inputs s value inputs' code s' _ _ hlit hI held w ws h
    obtain ⟨h₁, hinputs⟩ := hI held w ws h
    refine ⟨h₁, fun v hv => (hinputs v hv).imp_left fun hv => ?_⟩
    rcases Inputs.mem_vars_set hv with ⟨e', he, hv⟩ | hv
    · cases he
      rw [literal_vars hlit] at hv
      cases hv
    · exact hv

end

end VisualScript
