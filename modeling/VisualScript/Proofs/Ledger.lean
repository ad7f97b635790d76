import VisualScript.Proofs.Placing
import VisualScript.Proofs.Writing
import Mathlib.Data.List.Perm.Basic

/-!
# Proofs — Ledger

No block declares a temporary twice.  Behind every declaration of an open block, written out or
waiting, its slot stays bound in the scope of the block (`Scopes.Led`), and a slot that is bound is
never declared again.

* `Index.Built.declare_eq`: a node that is read through a paired output declares this output and
  nothing else.
* `Evaluation.ledger`, `Walk.ledger`: what is read and what is written keeps the ledger.
* `locals_nodup`: the temporaries of a generated body and of every block in it differ.
-/

namespace VisualScript

open Evaluation Scopes

variable {nodes : List Node} {connections : List Connection} {x : Index} {e : Endpoint}

/-- What is read on the way through a flow is an output port. -/
theorem Demanded.socket {flow : Parts} (h : Demanded x flow e)
    (hb : Index.Built .builtin nodes connections x) :
    ∃ s, x.socket? e = some s ∧ s.port.isInput = false := by
  cases h with
  | visited _ _ hf | through _ _ _ hf =>
    obtain ⟨t, -, -, hsrc⟩ := hf
    exact hb.source_socket hsrc

/-- Where every output port is paired with a template, so is every port that is read. -/
theorem Demanded.matched {flow : Parts} (h : Demanded x flow e)
    (hb : Index.Built .builtin nodes connections x)
    (ht : ∀ p ∈ x.placed, ∀ s ∈ p.2.outputs, s.template.isSome) : x.Matched e := by
  obtain ⟨s, hs, ho⟩ := h.socket hb
  obtain ⟨n, hn, hm, -⟩ := Index.mem_of_socket? hs
  exact ⟨s, hs, ht _ (Index.mem_placed hn) s (hb.mem_outputs hn hm ho)⟩

/-- A node that is read through a paired output hands on this output only, and so its temporary is
that of the output. -/
theorem Index.Built.declare_eq {n : PlacedNode} {r : Recipe} {inputs : Inputs} {s s' : State}
    {em : Emission} {value : Expr} (hb : Index.Built .builtin nodes connections x)
    (ho : ∃ s, x.socket? e = some s ∧ s.port.isInput = false) (hm : x.Matched e)
    (hn : x.node? e.node = some n) (hem : emit (r.outline x n) inputs s = .ok (em, s'))
    (hv : em.outputs.lookup (x.portName e) = some value) (t : State) :
    declare n em.outputs t =
      (.declare e (n.definition.varStem ++ toString t.counter) value .done,
        ({ t with counter := t.counter + 1 } : State).bind e
          (.ofVar (n.definition.varStem ++ toString t.counter))) := by
  obtain ⟨s₁, hs, hi⟩ := ho
  obtain ⟨s₂, hs₂, ht⟩ := hm
  obtain rfl := Option.some.inj (hs.symm.trans hs₂)
  have hnames := (Catalog.builtin_sound _ (hb.mem_definitions hn).1).outputs
  obtain ⟨p, hp, hid⟩ := hb.output?_portName hnames hn hs hi ht
  -- one output at most, and one of the name that is read
  obtain ⟨-, -, hout, -⟩ := emit_ok hem
  have hlen : em.outputs.length ≤ 1 := by
    have := congrArg List.length (outputs_fst hout)
    simp only [List.length_map] at this
    exact this ▸ Recipe.outputs_length_le x n r
  obtain ⟨o, ho⟩ := List.length_eq_one_iff.mp
    (Nat.le_antisymm hlen (List.length_pos_of_mem (Assoc.mem_of_lookup hv)))
  obtain rfl : o = (x.portName e, value) := by
    have := Assoc.mem_of_lookup hv
    rw [ho] at this
    exact (List.mem_singleton.mp this).symm
  have he : (⟨n.node.id, p.id⟩ : Endpoint) = e := by rw [hb.node_id hn, hid]
  rw [ho, declare, hp]
  simp only [declare, State.freshVar, he]

namespace Evaluation

/-- While a node is being evaluated, no value is bound for it. -/
theorem pending_unbound (x : Index) (pass : Pass)
    (hid : ∀ {id n}, x.node? id = some n → n.node.id = id) :
    Fetching x pass
      (fun pending _ s _ _ s' =>
        ∀ slot, Binds s'.scopes slot → Binds s.scopes slot ∨ slot.node ∉ pending)
      (fun pending _ _ _ s _ _ s' =>
        ∀ slot, Binds s'.scopes slot → Binds s.scopes slot ∨ slot.node ∉ pending) := by
  constructor
  case bound =>
    intro pending e s n value ss hn hl slot h
    have hsame := lookup?_sameAs hl
    rw [note_scopes] at hsame
    exact .inl ((binds_sameAs hsame).mp h)
  case inline =>
    intro pending e s n r inputs code s₁ em s₂ value hn _ _ _ _ _ _ hI hem _ slot h
    rw [emit_scopes hem] at h
    rw [← note_scopes x pass n s]
    exact (hI slot h).imp_right fun h hm => h (.tail _ hm)
  case temporary =>
    intro pending e s n r hidden inputs code s₁ em s₂ value hn _ _ hp _ _ _ _ hI hem _ made placed
      slot h
    rw [← note_scopes x pass n s]
    rcases binds_raise (binds_fetch.mp h) with h | h
    · exact .inl h
    rcases binds_declare h with h | h
    · exact .inr (by rw [h, hid hn]; exact hp)
    · rw [emit_scopes hem] at h
      exact (hI slot h).imp Binds.of_drop fun h hm => h (.tail _ hm)
  case nil => exact fun slot h => .inl h
  case skip => exact fun _ h => h
  case connected =>
    intro pending n t ts inputs s e value code s₁ inputs' more s₂ _ _ hR _ hI slot h
    exact (hI slot h).elim (hR slot) .inr
  case literal => exact fun _ _ _ h => h

end Evaluation

/-! ### The ledger -/

/-- What a scope has declared: `written` stands in front, the rest waits.  No two slots are the same,
and each has a value. -/
structure Scope.Led (written : List Endpoint) (sc : Scope) : Prop where
  nodup : (written ++ sc.hoisted.locals).Nodup
  bound : ∀ slot ∈ written ++ sc.hoisted.locals, ∃ value, (slot, value) ∈ sc.bindings

/-- The open scopes, each with what is written in its block. -/
abbrev Scopes.Led (written : List (List Endpoint)) (ss : Scopes) : Prop :=
  List.Forall₂ Scope.Led written ss

namespace Scope.Led

variable {written written' : List Endpoint} {sc sc' : Scope}

/-- Declarations may move between what is written and what waits. -/
theorem perm (h : sc.Led written)
    (hp : (written' ++ sc'.hoisted.locals).Perm (written ++ sc.hoisted.locals))
    (hb : ∀ b ∈ sc.bindings, b ∈ sc'.bindings) : sc'.Led written' := by
  refine ⟨hp.nodup_iff.mpr h.nodup, fun slot hs => ?_⟩
  obtain ⟨value, hv⟩ := h.bound slot (hp.mem_iff.mp hs)
  exact ⟨value, hb _ hv⟩

theorem bind (h : sc.Led written) (slot : Endpoint) (value : Expr) :
    (sc.bind slot value).Led written := h.perm (.refl _) fun _ hb => .tail _ hb

/-- A slot without a value is declared. -/
theorem declare (h : sc.Led written) {slot : Endpoint} (value : Expr)
    (hnew : ∀ v, (slot, v) ∉ sc.bindings) : (sc.bind slot value).Led (written ++ [slot]) := by
  have hp : (written ++ [slot] ++ sc.hoisted.locals).Perm
      (slot :: (written ++ sc.hoisted.locals)) := by
    rw [List.append_assoc]
    exact List.perm_middle
  refine ⟨hp.nodup_iff.mpr (List.nodup_cons.mpr ⟨fun hm => ?_, h.nodup⟩), fun a ha => ?_⟩
  · obtain ⟨v, hv⟩ := h.bound slot hm
    exact hnew v hv
  · rcases List.mem_cons.mp (hp.mem_iff.mp ha) with rfl | ha
    · exact ⟨value, .head _⟩
    · obtain ⟨v, hv⟩ := h.bound a ha
      exact ⟨v, .tail _ hv⟩

end Scope.Led

namespace Scopes.Led

variable {G G' : List Endpoint} {Gs Gs' : List (List Endpoint)} {ss ss' : Scopes} {s t : State}

theorem sameAs (h : Scopes.Led Gs ss) (hs : List.Forall₂ Scope.SameAs ss ss') :
    Scopes.Led Gs ss' := by
  induction h generalizing ss' with
  | nil => cases hs; exact .nil
  | cons hsc _ ih =>
    cases hs with
    | cons h₁ h₂ =>
      exact .cons (hsc.perm (by rw [h₁.hoisted]) fun b hb => h₁.bindings ▸ hb) (ih h₂)

theorem modifyTop (h : Scopes.Led (G :: Gs) ss) {f : Scope → Scope}
    (hf : ∀ sc : Scope, sc ∈ ss → sc.Led G → (f sc).Led G') :
    Scopes.Led (G' :: Gs) (modifyTop f ss) := by
  cases h with
  | cons hsc hss => exact .cons (hf _ (.head _) hsc) hss

theorem fetch (h : Scopes.Led Gs s.scopes) (slot : Endpoint) :
    Scopes.Led Gs (s.fetch slot).2.scopes :=
  h.sameAs (s.fetch_sameAs slot)

/-- Code that is made with scopes hidden is written in the current block, or it waits. -/
theorem raise {hidden : Nat} {code : Code} (h : Scopes.Led (G :: Gs) s.scopes)
    (hdrop : (G :: Gs).drop hidden = G' :: Gs')
    (ht : Scopes.Led ((G' ++ code.locals) :: Gs') t.scopes) :
    Scopes.Led ((G ++ (s.raise hidden code t).1.locals) :: Gs) (s.raise hidden code t).2.scopes := by
  unfold State.raise
  split
  · rename_i h0
    subst h0
    cases hdrop
    exact ht
  · have hmod : Scopes.Led (G' :: Gs')
        (Scopes.modifyTop (fun sc => { sc with hoisted := sc.hoisted ++ code }) t.scopes) := by
      refine ht.modifyTop fun sc _ hsc => hsc.perm ?_ fun _ hb => hb
      rw [Code.locals_append, List.append_assoc]
      exact List.perm_append_comm.append_left _
    have hall := List.rel_append (List.forall₂_take hidden h) hmod
    dsimp only at hall
    rw [← hdrop, List.take_append_drop] at hall
    simpa [Code.locals] using hall

/-- What waits in the current block is exchanged. -/
theorem setHoisted (h : Scopes.Led (G :: Gs) s.scopes) {code : Code}
    (hp : (G' ++ code.locals).Perm (G ++ (Walk.hoisted s).locals)) :
    Scopes.Led (G' :: Gs) (Walk.setHoisted s code).scopes := by
  obtain ⟨scopes, counter, reads⟩ := s
  cases h with
  | cons hsc hss => exact .cons (hsc.perm hp fun _ hb => hb) hss

theorem bindOutputs {n : PlacedNode} {outputs : List (String × Expr)}
    (h : Scopes.Led (G :: Gs) s.scopes) :
    Scopes.Led (G :: Gs) (Walk.bindOutputs n outputs s).scopes :=
  Walk.bindOutputs_induct (P := fun t => Scopes.Led (G :: Gs) t.scopes) h fun _ _ _ _ _ ht =>
    ht.modifyTop fun _ _ hsc => hsc.bind _ _

/-- A block begins with an empty ledger of its own. -/
theorem openBlock (h : Scopes.Led Gs s.scopes) {n : PlacedNode} {key : BlockKey} {isThread : Bool}
    {bindings : List (String × Nat)} {vars : List String} :
    Scopes.Led ([] :: Gs) (Walk.openBlock n key isThread bindings vars s).scopes :=
  .bindOutputs (.cons ⟨by simp [Code.locals], by simp [Code.locals]⟩ h)

theorem closeBlock (h : Scopes.Led (G :: Gs) s.scopes) :
    Scopes.Led Gs (Walk.closeBlock s).2.scopes ∧ G.Nodup := by
  obtain ⟨scopes, counter, reads⟩ := s
  cases h with
  | cons hsc hss => exact ⟨hss, (List.nodup_append.mp hsc.nodup).1⟩

end Scopes.Led

section

variable {nodes : List Node} {connections : List Connection} {x : Index} {flow : Parts}

/-- What is read keeps the ledger. -/
theorem Evaluation.ledger (hb : Index.Built .builtin nodes connections x)
    (hm : ∀ e, Demanded x flow e → x.Matched e) (pass : Pass) :
    Fetching x pass
      (fun _ e s _ code s' => Demanded x flow e → ∀ G Gs, Scopes.Led (G :: Gs) s.scopes →
        Scopes.Led ((G ++ code.locals) :: Gs) s'.scopes)
      (fun _ n ts _ s _ code s' =>
        (∀ t ∈ ts, t.kind = .data → ∀ e, source? x n t = some e → Demanded x flow e) →
          ∀ G Gs, Scopes.Led (G :: Gs) s.scopes →
            Scopes.Led ((G ++ code.locals) :: Gs) s'.scopes) := by
  constructor
  case bound =>
    intro pending e s n value ss hn hl _ G Gs h
    have hsame := lookup?_sameAs hl
    rw [note_scopes] at hsame
    simpa [Code.locals] using h.sameAs hsame
  case inline =>
    intro pending e s n r inputs code s₁ em s₂ value hn _ hx _ _ _ _ hI hem _ hd G Gs h
    rw [emit_scopes hem]
    rw [← note_scopes x pass n s] at h
    exact hI (fun t ht hk e' he' => hd.through hn hx ⟨t, ht, hk, he'⟩) G Gs h
  case temporary =>
    intro pending e s n r hidden inputs code s₁ em s₂ value hn hl hx _ _ _ hhidden hran hI hem hv
      made placed hd G Gs h
    rw [← note_scopes x pass n s] at h
    -- the scope the temporary belongs to is among the open ones
    have hlen : hidden < (G :: Gs).length := by
      rw [hhidden, h.length_eq, top]
      have := h.length_eq
      rw [List.length_cons] at this
      omega
    obtain ⟨G', Gs', hdrop⟩ := List.exists_cons_of_ne_nil
      (List.ne_nil_of_length_pos (by rw [List.length_drop]; omega) : (G :: Gs).drop hidden ≠ [])
    have hlow : Scopes.Led (G' :: Gs') ((note x pass n s).lower hidden).scopes :=
      hdrop ▸ List.forall₂_drop hidden h
    have h₁ := hI (fun t ht hk e' he' => hd.through hn hx ⟨t, ht, hk, he'⟩) G' Gs' hlow
    -- nothing has been bound for the node in the meantime
    have hnew : ¬ Binds s₁.scopes e := fun hbinds =>
      ((pending_unbound x pass hb.node_id).resolved hran e hbinds).elim
        (fun h => not_binds_of_lookup? hl h.of_drop) fun h => h (.head _)
    have hmade : made = _ := hb.declare_eq (hd.socket hb) (hm e hd) hn hem hv s₂
    have h₂ : Scopes.Led ((G' ++ (code ++ made.1).locals) :: Gs') made.2.scopes := by
      rw [Code.locals_append, hmade, ← List.append_assoc]
      rw [← emit_scopes hem] at h₁ hnew
      exact h₁.modifyTop fun sc hsc hled => hled.declare _ fun v hv => hnew ⟨sc, hsc, v, hv⟩
    exact (h.raise hdrop h₂).fetch e
  case nil =>
    intro pending n inputs s _ G Gs h
    simpa [Code.locals] using h
  case skip =>
    intro pending n t ts inputs s inputs' code s' _ hI hd
    exact hI fun t' ht' => hd t' (.tail _ ht')
  case connected =>
    intro pending n t ts inputs s e value code s₁ inputs' more s₂ hk he hR _ hI hd G Gs h
    have h₁ := hR (hd t (.head _) hk e he) G Gs h
    have h₂ := hI (fun t' ht' => hd t' (.tail _ ht')) _ Gs h₁
    rwa [Code.locals_append, ← List.append_assoc]
  case literal =>
    intro pending n t ts inputs s value inputs' code s' _ _ _ hI hd
    exact hI fun t' ht' => hd t' (.tail _ ht')

/-- What is written keeps the ledger, and the temporaries of every block in it differ. -/
theorem Walk.ledger (hb : Index.Built .builtin nodes connections x)
    (hm : ∀ e, Demanded x flow e → x.Matched e) (pass : Pass) :
    Walking x pass
      (fun c s code s' => (∀ id ∈ c.nodes, id ∈ flow.nodes) →
        ∀ G Gs, Scopes.Led (G :: Gs) s.scopes →
          Scopes.Led ((G ++ code.locals) :: Gs) s'.scopes ∧ code.Nested fun b => b.locals.Nodup)
      (fun _ _ own s code s' => (∀ id ∈ own.nodes, id ∈ flow.nodes) →
        ∀ G Gs, Scopes.Led (G :: Gs) s.scopes →
          Scopes.Led ((G ++ code.locals) :: Gs) s'.scopes ∧
            code.Nested fun b => b.locals.Nodup) := by
  constructor
  case finish =>
    intro s _ G Gs h
    exact ⟨by simpa [Code.locals] using h, trivial⟩
  case step =>
    intro id own rest s n filling before s₁ code s₂ after s₃ hn henter hran _ hown hrest hnodes G Gs h
    obtain ⟨r, s₁', em, s₂', -, hin, hem, -, rfl⟩ := Walk.enter_ok henter
    have h₁ := (Evaluation.ledger hb hm pass).inputs hin
      (fun t ht hk e he => .visited (hnodes id (.head _)) hn ⟨t, ht, hk, he⟩) G Gs h
    rw [← emit_scopes hem] at h₁
    -- what waits outside is set aside while the items of the node are written
    have h₂ : Scopes.Led ((G ++ before.locals ++ (hoisted (bindOutputs n em.outputs s₂')).locals) ::
        Gs) (setHoisted (bindOutputs n em.outputs s₂') .done).scopes :=
      h₁.bindOutputs.setHoisted (by simp [Code.locals])
    obtain ⟨h₃, hn₁⟩ :=
      hown (fun a ha => hnodes a (.tail _ (List.mem_append_left _ ha))) _ Gs h₂
    have h₄ : Scopes.Led ((G ++ before.locals ++ (hoisted s₂).locals ++ code.locals) :: Gs)
        (setHoisted s₂ (hoisted (bindOutputs n em.outputs s₂'))).scopes := by
      refine h₃.setHoisted ?_
      simp only [List.append_assoc]
      refine .append_left _ (.append_left _ ?_)
      rw [← List.append_assoc]
      exact List.perm_append_comm.trans (List.perm_append_comm.append_left _)
    obtain ⟨h₅, hn₂⟩ :=
      hrest (fun a ha => hnodes a (.tail _ (List.mem_append_right _ ha))) _ Gs h₄
    have hflat := ((Evaluation.growing x pass).inputs hin).2
    have hfront := (setHoisted_grow ((writing x pass hb.node_id).parts own hran).1).2
    simp only [Code.locals_append, Code.locals, Code.nested_append, Code.Nested]
    refine ⟨?_, ⟨hflat.nested, hfront.nested⟩, hn₁, hn₂⟩
    simpa only [List.append_assoc] using h₅
  case nil =>
    intro n filling s _ G Gs h
    exact ⟨by simpa [Code.locals] using h, trivial⟩
  case line => exact fun ih => ih
  case follow =>
    intro n filling body rest s code s₁ after s₂ _ hbody hrest hnodes G Gs h
    obtain ⟨h₁, hn₁⟩ := hbody (fun id hid => hnodes id (List.mem_append_left _ hid)) G Gs h
    obtain ⟨h₂, hn₂⟩ := hrest (fun id hid => hnodes id (List.mem_append_right _ hid)) _ Gs h₁
    rw [Code.locals_append, ← List.append_assoc, Code.nested_append]
    exact ⟨h₂, hn₁, hn₂⟩
  case block =>
    intro n filling port bindings tail body rest s code s₁ after s₂ _ _ hbody hrest hnodes G Gs h
    obtain ⟨h₁, hn₁⟩ :=
      hbody (fun id hid => hnodes id (List.mem_append_left _ hid)) [] (G :: Gs) h.openBlock
    obtain ⟨h₁, hl⟩ := h₁.closeBlock
    obtain ⟨h₂, hn₂⟩ := hrest (fun id hid => hnodes id (List.mem_append_right _ hid)) G Gs h₁
    exact ⟨h₂, ⟨by simpa using hl, by simpa using hn₁⟩, hn₂⟩
  case named =>
    exact fun _ ih hnodes => ih fun id hid => hnodes id (List.mem_append_right _ hid)
  case thread =>
    intro n filling port name isConnected body rest s code s₁ after s₂ _ _ hbody hrest hnodes G Gs h
    obtain ⟨h₁, hn₁⟩ :=
      hbody (fun id hid => hnodes id (List.mem_append_left _ hid)) [] (G :: Gs) h.openBlock
    obtain ⟨h₁, hl⟩ := h₁.closeBlock
    obtain ⟨h₂, hn₂⟩ := hrest (fun id hid => hnodes id (List.mem_append_right _ hid)) G Gs h₁
    exact ⟨h₂, ⟨hl, hn₁⟩, hn₂⟩

/-- **No block declares a temporary twice.** -/
theorem EntryFunction.locals_nodup (hb : Index.Built .builtin nodes connections x)
    (hm : ∀ e, Demanded x flow e → x.Matched e) {pass : Pass} {n : PlacedNode} {body : Code}
    {s : State} (hw : walkFlow x pass n flow = .ok (body, s)) :
    body.locals.Nodup ∧ body.Nested fun b => b.locals.Nodup := by
  have hstart : Scopes.Led [[]] (initial n).scopes := by
    rw [initial_scopes]
    exact .cons ⟨by simp [Code.locals], by simp [Code.locals]⟩ .nil
  obtain ⟨h, hnested⟩ := (Walk.ledger hb hm pass).parts flow hw (fun _ h => h) [] [] hstart
  exact ⟨h.closeBlock.2, hnested⟩

end

end VisualScript
