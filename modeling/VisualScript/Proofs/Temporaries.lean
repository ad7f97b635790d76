import VisualScript.Proofs.Bindings
import VisualScript.Proofs.Faults
import VisualScript.Proofs.Ledger

/-!
# Proofs — Temporaries

A temporary is remembered.  Of the ports of a node without exec ports only paired ones are bound,
each to a variable, and while the variable is visible the port has no other value (`Scopes.Memo`).

Where a temporary is declared further out, it is evaluated with the inner scopes hidden, and what it
is made from could be bound in one of these.  Then the level of its placement would be deeper: what
is evaluated on the way to a value is bound in no open scope (`LeadsTo.raise`).

* `Evaluation.drawing`: what is bound anew by a read.
* `Evaluation.remembering`, `Walk.remembering`: what is read and what is written keeps temporaries.

A node that is read through a spare port is the exception.  Its temporary is declared, but for the
paired port, and so it is declared again by the next read; hence the condition on the connections of
a node in `Scopes.Memo`.
-/

namespace VisualScript

open Evaluation Scopes

variable {e : Endpoint} {n : PlacedNode}

variable {nodes : List Node} {connections : List Connection} {x : Index}

/-! ### What is bound anew -/

/-- Where the scopes `ss` are open, the read of a port leads to the read of another through ports
that are not bound. -/
inductive LeadsTo (x : Index) (ss : Scopes) : Endpoint → Endpoint → Prop where
  | here {e : Endpoint} (free : ¬ Binds ss e) : LeadsTo x ss e e
  | through {e e' last : Endpoint} {n : PlacedNode} (free : ¬ Binds ss e)
      (node : x.node? e.node = some n) (data : n.hasExec = false) (feeds : Feeds x n e')
      (rest : LeadsTo x ss e' last) : LeadsTo x ss e last

namespace LeadsTo

variable {ss ss' : Scopes} {e last : Endpoint}

theorem free (h : LeadsTo x ss e last) : ¬ Binds ss last := by
  induction h with
  | here hfree => exact hfree
  | through _ _ _ _ _ ih => exact ih

theorem mono (h : LeadsTo x ss' e last) (hss : ∀ slot, Binds ss slot → Binds ss' slot) :
    LeadsTo x ss e last := by
  induction h with
  | here hfree => exact .here fun hb => hfree (hss _ hb)
  | through hfree hn hx hf _ ih => exact .through (fun hb => hfree (hss _ hb)) hn hx hf ih

/-- The other port is read by a connection as well. -/
theorem source (h : LeadsTo x ss e last) (hb : Index.Built .builtin nodes connections x)
    (he : ∃ c ∈ connections, c.source = e) : ∃ c ∈ connections, c.source = last := by
  induction h with
  | here => exact he
  | through _ _ _ hf _ ih =>
    obtain ⟨t, -, -, hsrc⟩ := hf
    exact ih (hb.mem_of_source hsrc)

/-- What is not bound up to a level that accounts for it is bound nowhere. -/
theorem raise {level : Nat} {seen : List String}
    (h : LeadsTo x (ss.drop (top ss - level)) e last) (hfed : Floored x ss level seen e)
    (hall : FloorsAll x ss level seen (· ∈ seen)) : LeadsTo x ss e last := by
  induction h with
  | here hfree =>
    rcases hfed with ⟨found, hf, hle⟩ | ⟨hnone, -⟩
    · exact absurd (binds_drop_of_level? hf hle) hfree
    · exact .here (not_binds_of_level? hnone)
  | through hfree hn hx hf _ ih =>
    rcases hfed with ⟨found, hl, hle⟩ | ⟨hnone, hseen | ⟨hx', -⟩⟩
    · exact absurd (binds_drop_of_level? hl hle) hfree
    · exact .through (not_binds_of_level? hnone) hn hx hf (ih (hall _ hseen _ hn _ hf))
    · rw [Index.hasExec_eq hn, hx] at hx'
      cases hx'

/-- What is read for a temporary leads to ports that are not bound in the hidden scopes either. -/
theorem placed {pass : Pass} {id : String} {n : PlacedNode} (hn : x.node? id = some n)
    (hf : Feeds x n e) (h : LeadsTo x (ss.drop (top ss - placement x pass ss id)) e last) :
    LeadsTo x ss e last := by
  obtain ⟨seen, hid, hall⟩ := placement_floors x pass ss id
  exact h.raise (hall id hid n hn e hf) hall

end LeadsTo

/-- The read of a port may bind the slot.  The slot belongs to a node that the read leads to, and if
it comes to this node through a paired port then the slot is that port. -/
def MayBind (x : Index) (ss : Scopes) (e slot : Endpoint) : Prop :=
  ∃ last, LeadsTo x ss e last ∧ last.node = slot.node ∧ (x.Matched last → last = slot)

theorem MayBind.mono {ss ss' : Scopes} {e slot : Endpoint} (h : MayBind x ss' e slot)
    (hss : ∀ a, Binds ss a → Binds ss' a) : MayBind x ss e slot := by
  obtain ⟨last, hl, h⟩ := h
  exact ⟨last, hl.mono hss, h⟩

theorem MayBind.through {ss : Scopes} {e e' slot : Endpoint} (hfree : ¬ Binds ss e)
    (hn : x.node? e.node = some n) (hx : n.hasExec = false) (hf : Feeds x n e')
    (h : MayBind x ss e' slot) : MayBind x ss e slot := by
  obtain ⟨last, hl, h⟩ := h
  exact ⟨last, .through hfree hn hx hf hl, h⟩

/-- What a connection reads is an output port. -/
theorem Index.Built.output_of_source (hb : Index.Built .builtin nodes connections x)
    (h : ∃ c ∈ connections, c.source = e) : ∃ s, x.socket? e = some s ∧ s.port.isInput = false := by
  obtain ⟨c, hc, rfl⟩ := h
  obtain ⟨s, -, hs, -, ho, -⟩ := hb.ends c hc
  exact ⟨s, hs, ho⟩

/-- **What is bound anew**: slots of nodes that the read leads to. -/
theorem Evaluation.drawing (hb : Index.Built .builtin nodes connections x) (pass : Pass) :
    Fetching x pass
      (fun _ e s _ code s' => (Grow s.scopes s'.scopes ∧ code.Flat) ∧
        ((∃ c ∈ connections, c.source = e) →
          ∀ slot, Binds s'.scopes slot → Binds s.scopes slot ∨ MayBind x s.scopes e slot))
      (fun _ n ts _ s _ code s' => (Grow s.scopes s'.scopes ∧ code.Flat) ∧
        ∀ slot, Binds s'.scopes slot → Binds s.scopes slot ∨
          ∃ t ∈ ts, t.kind = .data ∧ ∃ e, source? x n t = some e ∧ MayBind x s.scopes e slot) := by
  have hgrow := growing x pass
  constructor
  case bound =>
    intro pending e s n value ss hn hl
    refine ⟨@Fetching.bound _ _ _ _ hgrow pending _ _ _ _ _ hn hl, fun _ slot h => ?_⟩
    have hsame := lookup?_sameAs hl
    rw [note_scopes] at hsame
    exact .inl ((binds_sameAs hsame).mp h)
  case inline =>
    intro pending e s n r inputs code s₁ em s₂ value hn hl hx hp hi hr hres hI hem hv
    refine ⟨hgrow.inline hn hl hx hp hi hr hres hI.1 hem hv, fun _ slot h => ?_⟩
    rw [emit_scopes hem] at h
    rw [note_scopes] at hl hI
    refine (hI.2 slot h).imp_right ?_
    rintro ⟨t, ht, hk, e', he', hmay⟩
    exact hmay.through (not_binds_of_lookup? hl) hn hx ⟨t, ht, hk, he'⟩
  case temporary =>
    intro pending e s n r hidden inputs code s₁ em s₂ value hn hl hx hp hi hr hhidden hres hI hem hv
      made placed
    refine ⟨hgrow.temporary hn hl hx hp hi hr hhidden hres hI.1 hem hv, fun hsource slot h => ?_⟩
    rw [note_scopes] at hl hhidden
    have hfree := not_binds_of_lookup? hl
    rcases binds_raise (binds_fetch.mp h) with h | h
    · rw [note_scopes] at h
      exact .inl h
    -- the slot is declared here, or it was bound while the inputs were resolved
    have hcases : MayBind x s.scopes e slot ∨ Binds s₂.scopes slot := by
      by_cases hm : x.Matched e
      · have hmade : made = _ := hb.declare_eq (hb.output_of_source hsource) hm hn hem hv s₂
        rw [hmade] at h
        exact (binds_bind h).imp_left fun he => ⟨e, .here hfree, by rw [he], fun _ => he.symm⟩
      · exact (binds_declare h).imp_left fun he =>
          ⟨e, .here hfree, (he.trans (hb.node_id hn)).symm, fun h => absurd h hm⟩
    refine hcases.elim .inr fun h => ?_
    rw [emit_scopes hem] at h
    rcases hI.2 slot h with h | ⟨t, ht, hk, e', he', last, hlead, hlast⟩
    · rw [State.lower, note_scopes] at h
      exact .inl h.of_drop
    · have hf : Feeds x n e' := ⟨t, ht, hk, he'⟩
      rw [State.lower, note_scopes, hhidden] at hlead
      exact .inr ⟨last, .through hfree hn hx hf (hlead.placed hn hf), hlast⟩
  case nil => exact ⟨⟨.refl _, trivial⟩, fun slot h => .inl h⟩
  case skip =>
    intro pending n t ts inputs s inputs' code s' _ hI
    refine ⟨hI.1, fun slot h => (hI.2 slot h).imp_right ?_⟩
    rintro ⟨t', ht', h⟩
    exact ⟨t', .tail _ ht', h⟩
  case connected =>
    intro pending n t ts inputs s e value code s₁ inputs' more s₂ hk he hR hres hI
    refine ⟨hgrow.connected hk he hR.1 hres hI.1, fun slot h => ?_⟩
    rcases hI.2 slot h with h | ⟨t', ht', hk', e', he', hmay⟩
    · refine (hR.2 (hb.mem_of_source he) slot h).imp_right ?_
      exact fun hmay => ⟨t, .head _, hk, e, he, hmay⟩
    · exact .inr ⟨t', .tail _ ht', hk', e', he', hmay.mono fun _ => hR.1.1.binds⟩
  case literal =>
    intro pending n t ts inputs s value inputs' code s' _ _ _ hI
    refine ⟨hI.1, fun slot h => (hI.2 slot h).imp_right ?_⟩
    rintro ⟨t', ht', h⟩
    exact ⟨t', .tail _ ht', h⟩

/-! ### Memory -/

/-- The port of a template is a paired port. -/
theorem Index.Built.matched_of_output? (hb : Index.Built .builtin nodes connections x)
    {id name : String} {p : Port} (hn : x.node? id = some n) (hp : n.output? name = some p) :
    x.Matched ⟨n.node.id, p.id⟩ := by
  obtain ⟨s, hs, rfl, t, ht, -⟩ := PlacedNode.of_named? hp
  rw [hb.node_id hn]
  exact ⟨s, hb.socket?_of_mem hn (List.mem_append_right _ hs), by rw [ht]; rfl⟩

/-- The temporaries that the open scopes remember. -/
structure Scopes.Memo (x : Index) (connections : List Connection) (ss : Scopes) : Prop where
  /-- They belong to paired ports, and they are variables. -/
  paired : Values (fun slot value => x.hasExec slot.node = false →
    x.Matched slot ∧ ∃ v, value = .ofVar v) ss
  /-- A port has one at most, if its node is read through paired ports only. -/
  single : ∀ {slot value value'}, x.hasExec slot.node = false →
    (∀ c ∈ connections, c.source.node = slot.node → x.Matched c.source) →
    Shows ss slot value → Shows ss slot value' → value = value'

namespace Scopes.Memo

variable {ss ss' : Scopes}

/-- Scopes without further temporaries. -/
theorem of_values (h : Memo x connections ss)
    (hss : Values (fun slot value => x.hasExec slot.node = false → Shows ss slot value) ss') :
    Memo x connections ss' :=
  ⟨hss.mono fun _ _ hv hx => h.paired.shows (hv hx) hx, fun hx hc h₁ h₂ =>
    h.single hx hc (hss.shows h₁ hx) (hss.shows h₂ hx)⟩

section

variable {s : State} (h : Memo x connections s.scopes)

include h

theorem lower (hidden : Nat) : Memo x connections (s.lower hidden).scopes :=
  h.of_values (((Values.self s.scopes).lower hidden).mono fun _ _ hv _ => hv)

theorem setHoisted (code : Code) : Memo x connections (Walk.setHoisted s code).scopes :=
  h.of_values (((Values.self s.scopes).setHoisted code).mono fun _ _ hv _ => hv)

/-- The outputs of an exec node are no temporaries. -/
theorem bindOutputs {n : PlacedNode} (hx : x.hasExec n.node.id = true)
    (outputs : List (String × Expr)) :
    Memo x connections (Walk.bindOutputs n outputs s).scopes := by
  refine h.of_values (Values.bindOutputs ?_ ?_)
  · exact (Values.self s.scopes).mono fun _ _ hv _ => hv
  · intro o _ port hx'
    rw [hx] at hx'
    cases hx'

theorem openBlock {n : PlacedNode} (hx : x.hasExec n.node.id = true) {key : BlockKey}
    {isThread : Bool} {bindings : List (String × Nat)} {vars : List String} :
    Memo x connections (Walk.openBlock n key isThread bindings vars s).scopes := by
  refine h.of_values (Values.openBlock ?_ ?_)
  · exact (Values.self s.scopes).mono fun _ _ hv _ => hv
  · intro port v hx'
    rw [hx] at hx'
    cases hx'

theorem closeBlock : Memo x connections (Walk.closeBlock s).2.scopes :=
  h.of_values ((Values.self s.scopes).closeBlock.mono fun _ _ hv _ => hv)

end

/-- Scopes that have grown with others hidden remember what the hidden ones do, as long as nothing
is new to them that is bound in a hidden one. -/
theorem agree (h : Memo x connections ss) {ts : Scopes} (ht : Memo x connections ts) {hidden : Nat}
    (hgrow : Grow (ss.drop hidden) ts) {slot : Endpoint} (hx : x.hasExec slot.node = false)
    (hc : ∀ c ∈ connections, c.source.node = slot.node → x.Matched c.source)
    (hnew : Binds ts slot → Binds (ss.drop hidden) slot ∨ ¬ Binds ss slot) {value value' : Expr}
    (h₁ : Shows ss slot value ∨ Shows ts slot value)
    (h₂ : Shows ss slot value' ∨ Shows ts slot value') : value = value' := by
  have key : ∀ {v w}, Shows ss slot v → Shows ts slot w → v = w := by
    intro v w hv hw
    rcases hnew hw.binds with hlow | hnone
    · obtain ⟨u, hu⟩ := hlow.shows
      calc v = u := h.single hx hc hv hu.of_drop
        _ = w := ht.single hx hc (hgrow.shows hu) hw
    · exact absurd hv.binds hnone
  rcases h₁ with h₁ | h₁ <;> rcases h₂ with h₂ | h₂
  · exact h.single hx hc h₁ h₂
  · exact key h₁ h₂
  · exact (key h₂ h₁).symm
  · exact ht.single hx hc h₁ h₂

end Scopes.Memo

/-- The temporaries that the read of a port declares belong to paired ports of its node.  If the
port is paired itself, its own is the only one. -/
theorem Evaluation.declare_values (hb : Index.Built .builtin nodes connections x) {r : Recipe}
    {inputs : Inputs} {s t : State} {em : Emission} {value : Expr}
    (ho : ∃ s, x.socket? e = some s ∧ s.port.isInput = false) (hn : x.node? e.node = some n)
    (hem : emit (r.outline x n) inputs s = .ok (em, t))
    (hv : em.outputs.lookup (x.portName e) = some value) :
    Values (fun slot value => Shows t.scopes slot value ∨
      slot.node = e.node ∧ x.Matched slot ∧ (∃ v, value = .ofVar v) ∧
        (x.Matched e → slot = e ∧ value = .ofVar (n.definition.varStem ++ toString t.counter)))
      (declare n em.outputs t).2.scopes := by
  by_cases hm : x.Matched e
  · rw [hb.declare_eq ho hm hn hem hv t]
    exact ((Values.self t.scopes).mono fun _ _ => .inl).bind
      (.inr ⟨rfl, hm, ⟨_, rfl⟩, fun _ => ⟨rfl, rfl⟩⟩)
  · refine ((Values.self t.scopes).mono fun _ _ => .inl).declare fun o _ p hp v => .inr ?_
    exact ⟨hb.node_id hn, hb.matched_of_output? hn hp, ⟨v, rfl⟩, fun h => absurd h hm⟩

/-- What is read keeps temporaries. -/
theorem Evaluation.remembering (hb : Index.Built .builtin nodes connections x) (pass : Pass) :
    Fetching x pass
      (fun _ e s _ _ s' => (∃ c ∈ connections, c.source = e) → Memo x connections s.scopes →
        Memo x connections s'.scopes)
      (fun _ _ _ _ s _ _ s' => Memo x connections s.scopes → Memo x connections s'.scopes) := by
  constructor
  case bound =>
    intro pending e s n value ss hn hl _ h
    rw [note_scopes] at hl
    exact h.of_values (((Values.self s.scopes).sameAs (lookup?_sameAs hl)).mono fun _ _ hv _ => hv)
  case inline =>
    intro pending e s n r inputs code s₁ em s₂ value _ _ _ _ _ _ _ hI hem _ _ h
    rw [emit_scopes hem]
    rw [note_scopes] at hI
    exact hI h
  case temporary =>
    intro pending e s n r hidden inputs code s₁ em s₂ value hn hl hx hp hi hr hhidden hres hI hem hv
      made placed hsource h
    rw [note_scopes] at hl hhidden
    have h₁ := hI (Memo.lower (by rwa [note_scopes]) hidden)
    obtain ⟨⟨hgrow, -⟩, hdrawn⟩ := (drawing hb pass).resolved hres
    rw [State.lower, note_scopes] at hgrow hdrawn
    -- what is visible now was visible before, or while the inputs were resolved, or it is declared
    have hvalues : Values (fun slot value =>
        (Shows s.scopes slot value ∨ Shows s₁.scopes slot value) ∨
          slot.node = e.node ∧ x.Matched slot ∧ (∃ v, value = .ofVar v) ∧
            (x.Matched e → slot = e ∧ value = .ofVar (n.definition.varStem ++ toString s₂.counter)))
        (placed.2.fetch e).2.scopes := by
      refine (Values.raise ?_ ?_).fetch e |>.1
      · rw [note_scopes]
        exact (Values.self s.scopes).mono fun _ _ hv => .inl (.inl hv)
      · refine (declare_values hb (hb.output_of_source hsource) hn hem hv).mono fun slot v => ?_
        rw [emit_scopes hem]
        exact Or.imp_left .inr
    constructor
    case paired =>
      refine hvalues.mono fun slot v hv hxs => ?_
      rcases hv with (hv | hv) | ⟨-, hm, hvar, -⟩
      · exact h.paired.shows hv hxs
      · exact h₁.paired.shows hv hxs
      · exact ⟨hm, hvar⟩
    case single =>
      intro slot v v' hxs hc hv hv'
      -- the port that is read has not been bound before
      have hnew : slot = e → ∀ w, ¬ (Shows s.scopes slot w ∨ Shows s₁.scopes slot w) := by
        rintro rfl w (hw | hw)
        · exact not_binds_of_lookup? hl hw.binds
        · rcases (pending_unbound x pass hb.node_id).resolved hres slot hw.binds with hlow | hp
          · rw [State.lower, note_scopes] at hlow
            exact not_binds_of_lookup? hl hlow.of_drop
          · exact hp (.head _)
      have hmatched : slot.node = e.node → x.Matched e := by
        obtain ⟨c, hm, rfl⟩ := hsource
        exact fun he => hc c hm he.symm
      rcases hvalues.shows hv with hv | ⟨hs, -, -, hv⟩ <;>
        rcases hvalues.shows hv' with hv' | ⟨hs', -, -, hv'⟩
      · refine h.agree h₁ hgrow hxs hc (fun hbound => ?_) hv hv'
        refine (hdrawn slot hbound).imp_right ?_
        rintro ⟨t, ht, hk, e', he', last, hlead, hnode, hlast⟩
        -- the port through which the node of the slot is reached is the slot
        obtain ⟨c, hm, rfl⟩ := hlead.source hb (hb.mem_of_source he')
        rw [← hlast (hc c hm hnode)]
        rw [hhidden] at hlead
        exact (hlead.placed hn ⟨t, ht, hk, he'⟩).free
      · obtain ⟨he, -⟩ := hv' (hmatched hs')
        exact absurd hv (hnew he v)
      · obtain ⟨he, -⟩ := hv (hmatched hs)
        exact absurd hv' (hnew he v')
      · rw [(hv (hmatched hs)).2, (hv' (hmatched hs')).2]
  case nil => exact fun h => h
  case skip => exact fun _ hI => hI
  case connected =>
    intro pending n t ts inputs s e value code s₁ inputs' more s₂ _ he hR _ hI h
    exact hI (hR (hb.mem_of_source he) h)
  case literal => exact fun _ _ _ hI => hI

/-- A value that is read is written in place, or it is visible from then on. -/
theorem Evaluation.showing (x : Index) (pass : Pass) :
    Fetching x pass
      (fun _ e _ value _ s' => ∀ v ∈ value,
        (∃ n, x.node? e.node = some n ∧ isInlined x n = true) ∨ Shows s'.scopes e v)
      (fun _ _ _ _ _ _ _ _ => True) := by
  constructor
  case bound =>
    intro pending e s n value ss hn hl v hv
    cases hv
    exact .inr ((lookup?_grow hl).shows (shows_of_lookup? hl))
  case inline =>
    intro pending e s n r inputs code s₁ em s₂ value hn _ _ _ hi _ _ _ _ _ v _
    exact .inl ⟨n, hn, hi⟩
  case temporary =>
    intro pending e s n r hidden inputs code s₁ em s₂ value _ _ _ _ _ _ _ _ _ _ _ made placed v hv
    have hplaced := ((Values.self placed.2.scopes).fetch e).2 v hv
    exact .inr ((State.fetch_grow placed.2 e).shows hplaced)
  case nil => exact trivial
  case skip => exact fun _ _ => trivial
  case connected => exact fun _ _ _ _ _ => trivial
  case literal => exact fun _ _ _ _ => trivial

/-- Entering a node keeps temporaries. -/
theorem Walk.enter_remembers (hb : Index.Built .builtin nodes connections x) {pass : Pass}
    {s s' : State} {filling : Filling} {code : Code} (hx : x.hasExec n.node.id = true)
    (h : Memo x connections s.scopes) (henter : enter x pass n s = .ok (filling, code, s')) :
    Memo x connections s'.scopes := by
  obtain ⟨r, s₁, em, s₂, -, hin, hem, -, rfl⟩ := enter_ok henter
  have h₁ := (Evaluation.remembering hb pass).inputs hin h
  rw [← emit_scopes hem] at h₁
  exact h₁.bindOutputs hx em.outputs

/-- What is written keeps temporaries. -/
theorem Walk.remembering (hb : Index.Built .builtin nodes connections x) (pass : Pass) :
    Walking x pass
      (fun c s _ s' => (∀ id ∈ c.nodes, x.hasExec id = true) → Memo x connections s.scopes →
        Memo x connections s'.scopes)
      (fun n _ own s _ s' => x.hasExec n.node.id = true → (∀ id ∈ own.nodes, x.hasExec id = true) →
        Memo x connections s.scopes → Memo x connections s'.scopes) := by
  constructor
  case finish => exact fun _ h => h
  case step =>
    intro id own rest s n filling before s₁ code s₂ after s₃ hn henter _ _ hown hrest hexec h
    have hx : x.hasExec n.node.id = true := by
      rw [hb.node_id hn]
      exact hexec id (.head _)
    have h₁ := enter_remembers hb hx h henter
    have h₂ := hown hx (fun a ha => hexec a (.tail _ (List.mem_append_left _ ha)))
      (h₁.setHoisted .done)
    exact hrest (fun a ha => hexec a (.tail _ (List.mem_append_right _ ha))) (h₂.setHoisted _)
  case nil => exact fun _ _ h => h
  case line => exact fun ih => ih
  case follow =>
    intro n filling body rest s code s₁ after s₂ _ hbody hrest hx hexec h
    exact hrest hx (fun a ha => hexec a (List.mem_append_right _ ha))
      (hbody (fun a ha => hexec a (List.mem_append_left _ ha)) h)
  case block =>
    intro n filling port bindings tail body rest s code s₁ after s₂ _ _ hbody hrest hx hexec h
    exact hrest hx (fun a ha => hexec a (List.mem_append_right _ ha))
      (hbody (fun a ha => hexec a (List.mem_append_left _ ha)) (h.openBlock hx)).closeBlock
  case named =>
    intro n filling port name body rest s e after s' _ ih hx hexec h
    exact ih hx (fun a ha => hexec a (List.mem_append_right _ ha)) h
  case thread =>
    intro n filling port name isConnected body rest s code s₁ after s₂ _ _ hbody hrest hx hexec h
    exact hrest hx (fun a ha => hexec a (List.mem_append_right _ ha))
      (hbody (fun a ha => hexec a (List.mem_append_left _ ha)) (h.openBlock hx)).closeBlock

/-- At the start nothing but the parameters of the entry is bound. -/
theorem EntryFunction.initial_memo (hx : x.hasExec n.node.id = true) :
    Memo x connections (initial n).scopes := by
  have hvalues : Values (fun slot _ => slot.node = n.node.id) (initial n).scopes := by
    rw [initial_scopes]
    intro sc hsc b hb
    obtain rfl := List.mem_singleton.mp hsc
    obtain ⟨q, hq, rfl⟩ := List.mem_map.mp (List.mem_reverse.mp hb)
    obtain ⟨socket, -, rfl⟩ := List.mem_map.mp hq
    rfl
  have hnone : ∀ {slot value}, x.hasExec slot.node = false →
      ¬ Shows (initial n).scopes slot value := by
    intro slot value hslot hv
    rw [hvalues.shows hv, hx] at hslot
    cases hslot
  exact ⟨fun sc hsc b hb hslot => absurd ⟨sc, hsc, hb⟩ (hnone hslot),
    fun hslot _ hv => absurd hv (hnone hslot)⟩

end VisualScript
