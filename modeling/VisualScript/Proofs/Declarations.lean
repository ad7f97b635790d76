import VisualScript.Proofs.Ledger
import VisualScript.Proofs.Pairing

/-!
# Proofs — Declarations

The temporaries of a generated function.  Whatever is read while the function is made is declared in
it (`EntryFunction.declared`), in the innermost block around its recorded reads
(`Recording.placing_spec`), and only there (`EntryFunction.declared_once`).
-/

namespace VisualScript

open Evaluation Scopes

variable {x : Index} {n : PlacedNode} {flow : Parts} {s : State}

/-! ### Every value that is read is declared -/

/-- The value is an output of an exec node, or it is made from such values and declared among `A` if
it is kept in a temporary. -/
inductive Served (x : Index) (A : Endpoint → Prop) : Endpoint → Prop where
  | exec {e : Endpoint} {n : PlacedNode} (node : x.node? e.node = some n) (exec : n.hasExec = true) :
      Served x A e
  | data {e : Endpoint} {n : PlacedNode} (node : x.node? e.node = some n) (data : n.hasExec = false)
      (kept : isInlined x n = false → A e) (sources : ∀ e', Feeds x n e' → Served x A e') :
      Served x A e

namespace Served

variable {x : Index} {A : Endpoint → Prop} {e : Endpoint} {n : PlacedNode} {flow : Parts}

theorem of_data (h : Served x A e) (hn : x.node? e.node = some n) (hx : n.hasExec = false) :
    (isInlined x n = false → A e) ∧ ∀ e', Feeds x n e' → Served x A e' := by
  cases h with
  | exec hn' hx' =>
    obtain rfl := Option.some.inj (hn.symm.trans hn')
    simp [hx] at hx'
  | data hn' _ hA hs =>
    obtain rfl := Option.some.inj (hn.symm.trans hn')
    exact ⟨hA, hs⟩

/-- What feeds the nodes of a flow is served, and so is all that is read through it. -/
theorem of_demanded (hv : ∀ id ∈ flow.nodes, ∀ n, x.node? id = some n →
    ∀ e, Feeds x n e → Served x A e) (h : Demanded x flow e) : Served x A e := by
  induction h with
  | visited hid hn hf => exact hv _ hid _ hn _ hf
  | through _ hn hx hf ih => exact (ih.of_data hn hx).2 _ hf

end Served

namespace State

variable {A : Endpoint → Prop} {s t : State}

/-- Every value that is bound is served. -/
def Serves (x : Index) (A : Endpoint → Prop) (s : State) : Prop :=
  ∀ slot, Binds s.scopes slot → Served x A slot

/-- Every declaration that waits is one of `A`. -/
def Waits (A : Endpoint → Prop) (s : State) : Prop :=
  ∀ sc ∈ s.scopes, ∀ slot ∈ sc.hoisted.locals, A slot

theorem Waits.of_grow (h : t.Waits A) (hg : Grow s.scopes t.scopes) : s.Waits A := by
  unfold Waits at h ⊢
  generalize s.scopes = ss, t.scopes = ts at h hg
  induction hg with
  | nil => exact fun _ hm => nomatch hm
  | @cons a b ss ts hab _ ih =>
    intro sc hsc slot hslot
    rcases List.mem_cons.mp hsc with rfl | hsc
    · obtain ⟨c, -, hc⟩ := hab.hoisted
      exact h b (.head _) slot (by simp [hc, hslot])
    · exact ih (fun sc hsc => h sc (.tail _ hsc)) sc hsc slot hslot

/-- Code that is made with scopes hidden is written or waits. -/
theorem Waits.of_raise {hidden : Nat} {code : Code} (hne : hidden ≠ 0 → t.scopes ≠ [])
    (hc : ∀ slot ∈ (s.raise hidden code t).1.locals, A slot)
    (h : (s.raise hidden code t).2.Waits A) :
    (∀ slot ∈ code.locals, A slot) ∧ t.Waits A := by
  unfold raise at hc h
  split at h
  · rename_i h0
    simp only [h0, if_true] at hc
    exact ⟨hc, h⟩
  · rename_i h0
    obtain ⟨sc, ss, hss⟩ := List.exists_cons_of_ne_nil (hne h0)
    have htop : ∀ slot ∈ sc.hoisted.locals ++ code.locals, A slot := by
      intro slot hslot
      refine h { sc with hoisted := sc.hoisted ++ code } ?_ slot (by simpa using hslot)
      simp [hss, modifyTop]
    refine ⟨fun slot hslot => htop slot (List.mem_append_right _ hslot), fun sc' hm slot hslot => ?_⟩
    rw [hss] at hm
    rcases List.mem_cons.mp hm with rfl | hm
    · exact htop slot (List.mem_append_left _ hslot)
    · exact h sc' (by simp [hss, modifyTop, hm]) slot hslot

end State

section

variable {nodes : List Node} {connections : List Connection} {x : Index} {flow : Parts}

/-- What is read is served, if what is declared on the way is among `A`. -/
theorem Evaluation.serving (hb : Index.Built .builtin nodes connections x)
    (hm : ∀ e, Demanded x flow e → x.Matched e) (pass : Pass) (A : Endpoint → Prop) :
    Fetching x pass
      (fun _ e s _ code s' => Demanded x flow e → (∀ slot ∈ code.locals, A slot) → s'.Waits A →
        s.Serves x A → s'.Serves x A ∧ Served x A e)
      (fun _ n ts _ s _ code s' =>
        (∀ t ∈ ts, t.kind = .data → ∀ e, source? x n t = some e → Demanded x flow e) →
        (∀ slot ∈ code.locals, A slot) → s'.Waits A → s.Serves x A → s'.Serves x A ∧
          ∀ t ∈ ts, t.kind = .data → ∀ e, source? x n t = some e → Served x A e) := by
  constructor
  case bound =>
    intro pending e s n value ss hn hl _ _ _ hs
    have hsame := lookup?_sameAs hl
    rw [note_scopes] at hl hsame
    exact ⟨fun slot h => hs slot ((binds_sameAs hsame).mp h), hs e (binds_of_lookup? hl)⟩
  case inline =>
    intro pending e s n r inputs code s₁ em s₂ value hn _ hx _ hi _ _ hI hem _ hd hA hw hs
    obtain ⟨-, rfl, -, -⟩ := emit_ok hem
    obtain ⟨hs₁, hfeeds⟩ := hI (fun t ht hk e' he' => hd.through hn hx ⟨t, ht, hk, he'⟩) hA hw
      fun slot h => hs slot (by simpa using h)
    refine ⟨hs₁, .data hn hx (by simp [hi]) ?_⟩
    rintro e' ⟨t, ht, hk, he'⟩
    exact hfeeds t ht hk e' he'
  case temporary =>
    intro pending e s n r hidden inputs code s₁ em s₂ value hn _ hx _ _ _ hhidden hran hI hem hv
      made placed hd hA hw hs
    have hmade : made = _ := hb.declare_eq (hd.socket hb) (hm e hd) hn hem hv s₂
    have hgrow : Grow ((note x pass n s).lower hidden).scopes made.2.scopes := by
      have := (declare_grow n em.outputs s₂).1
      rw [emit_scopes hem] at this
      exact ((growing x pass).resolved hran).1.trans this
    have hne : hidden ≠ 0 → made.2.scopes ≠ [] := by
      intro h0 hnil
      rw [hnil] at hgrow
      have hdrop : (note x pass n s).scopes.drop hidden = [] := by
        generalize he : ((note x pass n s).lower hidden).scopes = ss at hgrow
        cases hgrow
        exact he
      have := List.drop_eq_nil_iff.mp hdrop
      simp only [top] at hhidden
      omega
    obtain ⟨hcode, hwait⟩ := State.Waits.of_raise hne hA (hw.of_grow (State.fetch_grow _ e))
    have hwait₁ : s₁.Waits A := by
      rw [hmade] at hwait
      have := hwait.of_grow ((Grow.refl s₂.scopes).bind e _)
      simpa only [State.Waits, emit_scopes hem] using this
    obtain ⟨hs₁, hfeeds⟩ := hI (fun t ht hk e' he' => hd.through hn hx ⟨t, ht, hk, he'⟩)
      (fun slot h => hcode slot (by simp [h])) hwait₁ fun slot h => hs slot (by
        simpa using h.of_drop)
    have he : Served x A e := by
      refine .data hn hx (fun _ => hcode e ?_) ?_
      · simp [hmade, Code.locals]
      · rintro e' ⟨t, ht, hk, he'⟩
        exact hfeeds t ht hk e' he'
    refine ⟨fun slot h => ?_, he⟩
    rcases binds_raise (binds_fetch.mp h) with h | h
    · exact hs slot (by simpa using h)
    · rw [hmade] at h
      rcases binds_bind h with rfl | h
      · exact he
      · exact hs₁ slot (emit_scopes hem ▸ h)
  case nil =>
    intro pending n inputs s _ _ _ hs
    exact ⟨hs, by simp⟩
  case skip =>
    intro pending n t ts inputs s inputs' code s' hk hI hd hA hw hs
    obtain ⟨hs', hfeeds⟩ := hI (fun t' ht' => hd t' (.tail _ ht')) hA hw hs
    refine ⟨hs', fun t' ht' hk' => ?_⟩
    rcases List.mem_cons.mp ht' with rfl | ht'
    · exact absurd hk' hk
    · exact hfeeds t' ht' hk'
  case connected =>
    intro pending n t ts inputs s e value code s₁ inputs' more s₂ hk he hR hran hI hd hA hw hs
    have hwait₁ := hw.of_grow ((growing x pass).resolved hran).1
    obtain ⟨hs₁, he₁⟩ := hR (hd t (.head _) hk e he) (fun slot h => hA slot (by simp [h])) hwait₁ hs
    obtain ⟨hs₂, hfeeds⟩ := hI (fun t' ht' => hd t' (.tail _ ht'))
      (fun slot h => hA slot (by simp [h])) hw hs₁
    refine ⟨hs₂, fun t' ht' hk' e' he' => ?_⟩
    rcases List.mem_cons.mp ht' with rfl | ht'
    · obtain rfl := Option.some.inj (he.symm.trans he')
      exact he₁
    · exact hfeeds t' ht' hk' e' he'
  case literal =>
    intro pending n t ts inputs s value inputs' code s' _ he _ hI hd hA hw hs
    obtain ⟨hs', hfeeds⟩ := hI (fun t' ht' => hd t' (.tail _ ht')) hA hw hs
    refine ⟨hs', fun t' ht' hk' e' he' => ?_⟩
    rcases List.mem_cons.mp ht' with rfl | ht'
    · rw [he] at he'
      cases he'
    · exact hfeeds t' ht' hk' e' he'

end

/-! ### Along a flow -/

namespace Walk

theorem binds_bindOutputs {n : PlacedNode} {slot : Endpoint} {outputs : List (String × Expr)}
    {s : State} :
    Binds (bindOutputs n outputs s).scopes slot → slot.node = n.node.id ∨ Binds s.scopes slot :=
  bindOutputs_induct
    (P := fun t => Binds t.scopes slot → slot.node = n.node.id ∨ Binds s.scopes slot)
    .inr fun _ _ _ _ _ ht h => (binds_bind h).elim (fun hs => .inl (congrArg _ hs)) ht

theorem binds_openBlock {n : PlacedNode} {slot : Endpoint} {key : BlockKey} {isThread : Bool}
    {bindings : List (String × Nat)} {vars : List String} {s : State}
    (h : Binds (openBlock n key isThread bindings vars s).scopes slot) :
    slot.node = n.node.id ∨ Binds s.scopes slot := by
  refine (binds_bindOutputs h).imp_right fun ⟨sc, hsc, value, hv⟩ => ?_
  rcases List.mem_cons.mp hsc with rfl | hsc
  · cases hv
  · exact ⟨sc, hsc, value, hv⟩

theorem binds_closeBlock {slot : Endpoint} {s : State} (h : Binds (closeBlock s).2.scopes slot) :
    Binds s.scopes slot := by
  obtain ⟨scopes, counter, reads⟩ := s
  cases scopes with
  | nil => exact h
  | cons sc ss =>
    obtain ⟨sc', hsc, hv⟩ := h
    exact ⟨sc', .tail _ hsc, hv⟩

end Walk

namespace State.Waits

variable {A : Endpoint → Prop} {s : State}

theorem of_setHoisted {code : Code} (h : (Walk.setHoisted s code).Waits A)
    (hs : ∀ slot ∈ (Walk.hoisted s).locals, A slot) : s.Waits A := by
  obtain ⟨scopes, counter, reads⟩ := s
  cases scopes with
  | nil => exact h
  | cons sc ss =>
    intro sc' hsc slot hslot
    rcases List.mem_cons.mp hsc with rfl | hsc
    · exact hs slot hslot
    · exact h sc' (.tail _ hsc) slot hslot

theorem of_closeBlock (h : (Walk.closeBlock s).2.Waits A) (hs : Walk.hoisted s = .done) :
    s.Waits A := by
  obtain ⟨scopes, counter, reads⟩ := s
  cases scopes with
  | nil => exact h
  | cons sc ss =>
    intro sc' hsc slot hslot
    rcases List.mem_cons.mp hsc with rfl | hsc
    · have hs : sc'.hoisted = .done := hs
      rw [hs] at hslot
      cases hslot
    · exact h sc' hsc slot hslot

end State.Waits

section

variable {nodes : List Node} {connections : List Connection} {x : Index} {flow : Parts}

/-- What the nodes of a flow need is served, if what the code declares is among `A`. -/
theorem Walk.serving (hb : Index.Built .builtin nodes connections x)
    (hm : ∀ e, Demanded x flow e → x.Matched e) (pass : Pass) (A : Endpoint → Prop) :
    Walking x pass
      (fun c s code s' => c.Laid x → (∀ id ∈ c.nodes, id ∈ flow.nodes) →
        ∀ p, code.Declares (fun slot _ => A slot) p → s'.Waits A → s.Serves x A →
          s'.Serves x A ∧ ∀ id ∈ c.nodes, ∀ m, x.node? id = some m → ∀ e, Feeds x m e →
            Served x A e)
      (fun n _ own s code s' => ∀ items, own.Laid x items → (∀ id ∈ own.nodes, id ∈ flow.nodes) →
        x.node? n.node.id = some n → n.hasExec = true →
        ∀ p, code.Declares (fun slot _ => A slot) p → s'.Waits A → s.Serves x A →
          s'.Serves x A ∧ ∀ id ∈ own.nodes, ∀ m, x.node? id = some m → ∀ e, Feeds x m e →
            Served x A e) := by
  have hwrite := writing x pass hb.node_id
  constructor
  case finish => exact fun _ _ _ _ _ hs => ⟨hs, by simp [Chain.nodes]⟩
  case step =>
    intro id own rest s n filling before s₁ code s₂ after s₃ hn henter hranOwn hranRest hown hrest
      hlaid hnodes p hdecl hwait hs
    cases hlaid with
    | step hn' _ hx _ hlp hlc =>
      obtain rfl := Option.some.inj (hn.symm.trans hn')
      have hid := hb.node_id hn
      obtain ⟨r, s₁', em, s₂', -, hin, hem, -, rfl⟩ := Walk.enter_ok henter
      simp only [Code.declares_append] at hdecl
      obtain ⟨⟨hbefore, hfront⟩, hmark⟩ := hdecl
      obtain ⟨hcode, hafter⟩ := Code.declares_append.mp
        (show (code ++ after).Declares (fun slot _ => A slot) p from hmark)
      have hlocals : ∀ {c : Code}, c.Declares (fun slot _ => A slot) p → ∀ slot ∈ c.locals, A slot :=
        fun h slot hslot => h p slot (Code.mem_declarations_of_mem_locals hslot)
      -- backwards from the end, what waits at each point is declared later
      have hwaitRest := hwait.of_grow (hwrite.chain rest hranRest).1.1
      have hwaitOwn : s₂.Waits A := hwaitRest.of_setHoisted (hlocals hfront)
      have hwaitIn : s₁'.Waits A := by
        refine hwaitRest.of_grow (.trans ?_ (setHoisted_grow (hwrite.parts own hranOwn).1).1)
        rw [← emit_scopes hem]
        exact bindOutputs_grow n em.outputs s₂'
      obtain ⟨hs₁, hfeeds⟩ := (Evaluation.serving hb hm pass A).inputs hin
        (fun t ht hk e he => .visited (hnodes id (.head _)) hn ⟨t, ht, hk, he⟩)
        (hlocals hbefore) hwaitIn hs
      have hs₁' : (setHoisted (bindOutputs n em.outputs s₂') .done).Serves x A := by
        intro slot h
        rcases binds_bindOutputs (binds_modifyTop h fun _ _ hb => hb) with h | h
        · exact .exec (by rw [h, hid]; exact hn) hx
        · exact hs₁ slot (emit_scopes hem ▸ h)
      obtain ⟨hs₂, hown⟩ := hown _ hlp (fun a ha => hnodes a (.tail _ (List.mem_append_left _ ha)))
        (hid.symm ▸ hn) hx p hcode hwaitOwn hs₁'
      obtain ⟨hs₃, hrest⟩ := hrest hlc
        (fun a ha => hnodes a (.tail _ (List.mem_append_right _ ha))) p hafter hwait
        fun slot h => hs₂ slot (binds_modifyTop h fun _ _ hb => hb)
      refine ⟨hs₃, fun a ha m hm e hf => ?_⟩
      rcases List.mem_cons.mp ha with rfl | ha
      · obtain rfl := Option.some.inj (hn.symm.trans hm)
        obtain ⟨t, ht, hk, he⟩ := hf
        exact hfeeds t ht hk e he
      · rcases List.mem_append.mp ha with ha | ha
        · exact hown a ha m hm e hf
        · exact hrest a ha m hm e hf
  case nil => exact fun _ _ _ _ _ _ _ _ hs => ⟨hs, by simp [Parts.nodes]⟩
  case line =>
    intro n filling t rest s after s' ih items hlaid
    cases hlaid with
    | line _ hl => exact ih _ hl
  case follow =>
    intro n filling body rest s code s₁ after s₂ hran hbody hrest items hlaid hnodes hn hx p hdecl
      hwait hs
    cases hlaid with
    | follow _ hlb hl =>
      obtain ⟨hcode, hafter⟩ := Code.declares_append.mp hdecl
      obtain ⟨hs₁, h₁⟩ := hbody hlb (fun a ha => hnodes a (List.mem_append_left _ ha)) p hcode
        (hwait.of_grow (hwrite.parts rest hran).1) hs
      obtain ⟨hs₂, h₂⟩ := hrest _ hl (fun a ha => hnodes a (List.mem_append_right _ ha)) hn hx p
        hafter hwait hs₁
      exact ⟨hs₂, fun a ha => (List.mem_append.mp ha).elim (h₁ a) (h₂ a)⟩
  case block =>
    intro n filling port bindings tail body rest s code s₁ after s₂ hranBody hranRest hbody hrest
      items hlaid hnodes hn hx p hdecl hwait hs
    cases hlaid with
    | block _ _ _ hlb hl =>
      obtain ⟨hcode, hafter⟩ := Code.declares_block.mp hdecl
      have hwait₁ := (hwait.of_grow (hwrite.parts rest hranRest).1).of_closeBlock
        ((hwrite.chain body hranBody).1.2.trans (hoisted_bindOutputs _ _ _))
      obtain ⟨hs₁, h₁⟩ := hbody hlb (fun a ha => hnodes a (List.mem_append_left _ ha)) _
        (by simpa using hcode) hwait₁ fun slot h =>
          (binds_openBlock h).elim (fun h => .exec (by rw [h]; exact hn) hx) (hs slot)
      obtain ⟨hs₂, h₂⟩ := hrest _ hl (fun a ha => hnodes a (List.mem_append_right _ ha)) hn hx p
        hafter hwait fun slot h => hs₁ slot (binds_closeBlock h)
      exact ⟨hs₂, fun a ha => (List.mem_append.mp ha).elim (h₁ a) (h₂ a)⟩
  case named =>
    intro n filling port name body rest s e after s' _ ih items hlaid
    cases hlaid with
    | thread _ _ hdone _ hl =>
      obtain rfl := hdone rfl
      exact ih _ hl
  case thread =>
    intro n filling port name isConnected body rest s code s₁ after s₂ hranBody hranRest hbody hrest
      items hlaid hnodes hn hx p hdecl hwait hs
    cases hlaid with
    | thread _ _ _ hlb hl =>
      obtain ⟨hcode, hafter⟩ := Code.declares_block.mp hdecl
      have hwait₁ := (hwait.of_grow (hwrite.parts rest hranRest).1).of_closeBlock
        ((hwrite.chain body hranBody).1.2.trans (hoisted_bindOutputs _ _ _))
      obtain ⟨hs₁, h₁⟩ := hbody hlb (fun a ha => hnodes a (List.mem_append_left _ ha)) _ hcode hwait₁
        fun slot h => (binds_openBlock h).elim (fun h => .exec (by rw [h]; exact hn) hx) (hs slot)
      obtain ⟨hs₂, h₂⟩ := hrest _ hl (fun a ha => hnodes a (List.mem_append_right _ ha)) hn hx p
        hafter hwait fun slot h => hs₁ slot (binds_closeBlock h)
      exact ⟨hs₂, fun a ha => (List.mem_append.mp ha).elim (h₁ a) (h₂ a)⟩

/-- **What is read is declared.**  Every node whose value is kept in a temporary and that is read on
the way through a flow has a declaration in the code of the flow. -/
theorem EntryFunction.declared (hb : Index.Built .builtin nodes connections x)
    (hm : ∀ e, Demanded x flow e → x.Matched e) {pass : Pass} {n : PlacedNode} {body : Code}
    {s : State} (hn : x.node? n.node.id = some n) (hx : n.hasExec = true)
    (hlaid : flow.Laid x (Flow.entryItems n)) (hw : walkFlow x pass n flow = .ok (body, s))
    {e : Endpoint} {m : PlacedNode} (hd : Demanded x flow e) (hem : x.node? e.node = some m)
    (hmx : m.hasExec = false) (hi : isInlined x m = false) : ∃ q, (q, e) ∈ body.declarations [] := by
  have hstart : (initial n).Serves x fun slot => ∃ q, (q, slot) ∈ body.declarations [] := by
    rintro slot ⟨sc, hsc, value, hv⟩
    rw [initial_scopes, List.mem_singleton] at hsc
    subst hsc
    obtain ⟨q, hq, he⟩ := List.mem_map.mp (List.mem_reverse.mp hv)
    cases he
    obtain ⟨socket, -, rfl⟩ := List.mem_map.mp hq
    exact .exec hn hx
  -- at the end the scope of the function is the only one, and nothing waits in it
  have hwait : s.Waits fun slot => ∃ q, (q, slot) ∈ body.declarations [] := by
    have hnone := Walk.hoisted_of_follows hb.node_id hlaid hw
    have hgrow := ((writing x pass hb.node_id).parts flow hw).1
    obtain ⟨scopes, counter, reads⟩ := s
    simp only [Walk.hoisted, initial_scopes] at hnone hgrow
    cases hgrow with
    | cons _ ht =>
      cases ht
      intro sc hsc slot hslot
      obtain rfl := List.mem_singleton.mp hsc
      simp only at hnone
      rw [hnone] at hslot
      cases hslot
  obtain ⟨-, hserved⟩ := (Walk.serving hb hm pass _).parts flow hw _ hlaid (fun _ h => h) hn hx []
    (fun q slot hq => ⟨q, hq⟩) hwait hstart
  exact ((Served.of_demanded hserved hd).of_data hem hmx).1 hi

end

/-! ### Once, and in the innermost block -/

/-- What the recording pass hands to the placing pass. -/
theorem EntryFunction.recording {nodes : List Node} {connections : List Connection}
    (hb : Index.Built .builtin nodes connections x) (hf : (n, flow) ∈ Script.flows x x.entries {})
    (hx : n.hasExec = true) {code : Code} (hw : walkFlow x .recording n flow = .ok (code, s)) :
    Recording x n flow s.reads := by
  obtain ⟨hlaid, hnodup⟩ := Script.flows_entries hb
  have hn := ((Script.mem_entries hb).mp (Script.mem_of_mem_flows hf)).1
  obtain ⟨hevaluated, hvisited⟩ := recording_spec hb.node_id hn hx (hlaid _ hf) hw
  exact ⟨hb.node_id, hn, hx, Script.nodup_of_mem_flows hnodup hf, hevaluated, hvisited⟩

/-- Control does not go on from an entry without exec ports. -/
theorem EntryFunction.entryItems_eq_nil (hx : n.hasExec = false) : Flow.entryItems n = [] := by
  simp only [Flow.entryItems, List.map_eq_nil_iff, List.filter_eq_nil_iff]
  intro socket hs hk
  exact List.any_eq_false.mp hx socket (List.mem_append_right _ hs) hk

/-- Nothing is recorded for an entry without exec ports. -/
theorem EntryFunction.exec_of_reads (hlaid : flow.Laid x (Flow.entryItems n)) {pass : Pass}
    {code : Code} (hw : walkFlow x pass n flow = .ok (code, s)) (hr : s.reads ≠ []) :
    n.hasExec = true := by
  by_contra hx
  rw [entryItems_eq_nil (by simpa using hx)] at hlaid
  cases hlaid
  rw [walkFlow, Walk.parts] at hw
  cases hw
  exact hr (initial_reads n)

/-- The temporaries of a placed body differ, also in the node they belong to. -/
theorem EntryFunction.nodup_declared {nodes : List Node} {connections : List Connection}
    (hb : Index.Built .builtin nodes connections x) (hlaid : flow.Laid x (Flow.entryItems n))
    (hm : ∀ e, Demanded x flow e → x.Matched e) {reads : List (String × Path)}
    (h : Recording x n flow reads) {body : Code}
    (hw : walkFlow x (.placing reads) n flow = .ok (body, s)) :
    ((body.declarations []).map (·.2.node)).Nodup := by
  have hdecl := h.placing_spec hlaid hw
  obtain ⟨hlocals, hnl⟩ := locals_nodup hb hm hw
  have hports : (Flow.entryItems n).filterMap Item.blockPort? = [] := by
    simp [Flow.entryItems, Item.blockPort?]
  obtain ⟨-, hkeys, hnk⟩ := ((writing x _ hb.node_id).parts flow hw).2.keys hlaid h.nodup
    (hports ▸ List.nodup_nil)
  have hslots := Code.nodup_declarations [] hlocals hkeys hnl hnk fun q q' slot hq hq' =>
    (hdecl q slot hq).1.unique (hdecl q' slot hq').1
  have hnode := hslots.map_on (f := Endpoint.node) (by
    intro a ha b hb he
    obtain ⟨⟨q, a⟩, hq, rfl⟩ := List.mem_map.mp ha
    obtain ⟨⟨q', b⟩, hq', rfl⟩ := List.mem_map.mp hb
    exact (hdecl q a hq).2.unique (hdecl q' b hq').2 he)
  rwa [List.map_map] at hnode

/-- **One declaration, in the innermost block.**  Let the script of a graph over the built-in catalog
be generated, and let every output that is read on the way through the flow of an entry be paired
with a template.  Then a node without exec ports whose value is not written in place, and that is
read in the recording pass over the entry, has exactly one declaration in the function of the entry.
It stands in the innermost block around the reads of the node, and is a line of the script. -/
theorem EntryFunction.declared_once {indent moduleId text : String} {nodes : List Node}
    {connections : List Connection} {x : Index}
    (hbuild : Index.build .builtin nodes connections = .ok x)
    (hgen : Script.generate .builtin indent moduleId nodes connections = .ok text)
    {n : PlacedNode} {flow : Parts} (hf : (n, flow) ∈ Script.flows x x.entries {})
    (hm : ∀ e, Demanded x flow e → x.Matched e) :
    ∃ fs f first recorded last, Script.functions x moduleId = .ok fs ∧
      text = Script.text indent moduleId fs ∧ f ∈ fs ∧ f.entry = n ∧
      walk x .recording n flow = .ok (first, recorded) ∧
      walk x (.placing recorded.reads) n flow = .ok (f.body, last) ∧
      ∀ id m, x.node? id = some m → m.hasExec = false → isInlined x m = false →
        (∃ p, (id, p) ∈ recorded.reads) →
          ∃ q port, (f.body.declarations []).filter (·.2.node = id) = [(q, ⟨id, port⟩)] ∧
            Innermost (fun p => (id, p) ∈ recorded.reads) q ∧
            ∃ var value rest depth, .declare ⟨id, port⟩ var value rest ∈ f.body.tails ∧
              Code.pad indent depth ++ "local " ++ var ++ " = " ++ value.text ∈ f.render indent := by
  have hb := Index.built_of_build hbuild
  have hentry := Script.mem_of_mem_flows hf
  obtain ⟨fs, hfs, htext⟩ := Script.functions_of_generate hbuild hgen
  have htext := htext (Script.ne_nil_of_mem_entries hb hentry)
  obtain ⟨f, hmem, hmake⟩ := mem_of_mapM_ok hfs hf
  obtain ⟨first, recorded, last, hfirst, hlast, hentry, -, hname⟩ := make_ok hmake
  refine ⟨fs, f, first, recorded, last, hfs, htext, hmem, hentry, walk_ok_iff.mpr ⟨hfirst, hname⟩,
    walk_ok_iff.mpr ⟨hlast, hname⟩, ?_⟩
  intro id m hid hx hi ⟨p, hp⟩
  have hlaid := (Script.flows_entries hb).1 _ hf
  have hrec := recording hb hf (exec_of_reads hlaid hfirst (List.ne_nil_of_mem hp)) hfirst
  -- the node is read through some output, and this output is declared
  obtain ⟨port, hd⟩ := (hrec.evaluated id p hp).demanded
  obtain ⟨q, hq⟩ := declared hb hm hrec.entry hrec.exec hlaid hlast hd hid hx hi
  obtain ⟨var, value, rest, htail⟩ := Code.declare_mem_tails hq
  obtain ⟨depth, hlines⟩ := render_tail indent htail
  exact ⟨q, port, filter_eq_singleton (nodup_declared hb hlaid hm hrec hlast) hq,
    (hrec.placing_spec hlaid hlast q _ hq).1, var, value, rest, depth, htail, hlines (.head _)⟩

/-- A number that is rolled for whichever branch is taken. -/
def EntryFunction.rollNodes : List Node :=
  [{ id := "spawn", nodeType := "on-player-respawned" }, { id := "fork", nodeType := "branch" },
   { id := "roll", nodeType := "math-random-int" }, { id := "yes", nodeType := "print" },
   { id := "no", nodeType := "print" }]

def EntryFunction.rollConnections : List Connection :=
  [⟨"c0", ⟨"spawn", "output_0"⟩, ⟨"fork", "input_0"⟩⟩,
   ⟨"c1", ⟨"fork", "output_0"⟩, ⟨"yes", "input_0"⟩⟩,
   ⟨"c2", ⟨"fork", "output_1"⟩, ⟨"no", "input_0"⟩⟩,
   ⟨"c3", ⟨"roll", "output_0"⟩, ⟨"yes", "input_1"⟩⟩,
   ⟨"c4", ⟨"roll", "output_0"⟩, ⟨"no", "input_1"⟩⟩]

/-- Both branches read the number, and it is declared once. -/
theorem EntryFunction.declared_once_roll : ∃ x text n flow, ∃ f : EntryFunction,
    ∃ first recorded last q port var value depth,
    Index.build .builtin rollNodes rollConnections = .ok x ∧
      Script.generate .builtin "\t" "demo" rollNodes rollConnections = .ok text ∧
      (n, flow) ∈ Script.flows x x.entries {} ∧ (∀ e, Demanded x flow e → x.Matched e) ∧
      walk x .recording n flow = .ok (first, recorded) ∧
      walk x (.placing recorded.reads) n flow = .ok (f.body, last) ∧
      (f.body.declarations []).filter (·.2.node = "roll") = [(q, ⟨"roll", port⟩)] ∧
      Innermost (fun p => ("roll", p) ∈ recorded.reads) q ∧
      Code.pad "\t" depth ++ "local " ++ var ++ " = " ++ Expr.text value ∈ f.render "\t" := by
  have key : (Index.build .builtin rollNodes rollConnections).toOption.any (fun x =>
      (Script.functions x "demo").toOption.any (fun _ =>
      x.placed.all (fun p => p.2.outputs.all (·.template.isSome)) &&
      (x.node? "roll").any (fun m => !m.hasExec && !isInlined x m) &&
      (Script.flows x x.entries {}).any fun f =>
        (walk x .recording f.1 f.2).toOption.any fun w =>
          w.2.reads.any fun r => r.1 == "roll")) = true := by
    rw [Index.build, Index.addNode_builtin]
    decide +kernel
  obtain ⟨x, _, hx, -, htext, key⟩ := Script.exists_of_run (List.cons_ne_nil _ _) key "\t"
  simp only [Bool.and_eq_true, List.any_eq_true] at key
  obtain ⟨⟨hports, hroll⟩, ⟨n, flow⟩, hf, hreads⟩ := key
  have hm : ∀ e, Demanded x flow e → x.Matched e := fun e hd =>
    hd.matched (Index.built_of_build hx) (by simpa using hports)
  obtain ⟨fs, f, first, recorded, last, -, -, -, -, hfirst, hlast, hall⟩ :=
    declared_once hx htext hf hm
  obtain ⟨m, hm', hroll⟩ := (Option.any_eq_true ..).mp hroll
  rw [hfirst] at hreads
  simp only [Except.toOption, Option.any_some, List.any_eq_true, beq_iff_eq] at hreads
  obtain ⟨⟨id, p⟩, hp, rfl⟩ := hreads
  simp only [Bool.and_eq_true, Bool.not_eq_true'] at hroll
  obtain ⟨q, port, hq, hinnermost, var, value, -, depth, -, hline⟩ :=
    hall "roll" m hm' hroll.1 hroll.2 ⟨p, hp⟩
  exact ⟨x, _, n, flow, f, first, recorded, last, q, port, var, value, depth, hx, htext, hf, hm,
    hfirst, hlast, hq, hinnermost, hline⟩

end VisualScript
